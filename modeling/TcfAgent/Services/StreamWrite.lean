import TcfAgent.Services.StreamCommands

/-!
# Writing to a stream

`virtual_stream_write` gets the size of the data twice: as an argument, and by the data themselves.
The argument is used only where the data do not all go to the stream at once: it gives the size of
the block for the rest of them and of the request that is left behind.

`Exact` says of the end of a command that the stream gets the payload and nothing else, now or when
the request is served; `Declared` says what the client must have sent.

Main results

* `serveAll_eq`          — a request is served cell by cell, in order
* `writeLoop_full`       — what the loop leaves to the block where the stream is full
* `serveClient_bytes`    — `virtual_stream_get_data` serves a request as far as there is room
* `write_exact_iff`      — the stream gets exactly the payload where the sizes are the same, and
  where the argument is not used
-/

namespace TcfAgent.StreamCommands

open TcfAgent.Lib TcfAgent.JsonText TcfAgent.JsonBuffers TcfAgent.StreamsService

/-! ## What a request gives to the stream -/

/-- The next `n` cells of the block; `none` is one to which nothing was stored. -/
def WriteRequest.cells (w : WriteRequest) (n : Nat) : List (Option UInt8) :=
  (List.range' w.offs n).map fun i => w.data[i]?

/-- The request is served where the stream has room for `room` bytes. -/
def WriteRequest.serve (w : WriteRequest) (room : Nat) : List (Option UInt8) × WriteRequest :=
  let n := min room (w.size - w.offs)
  (w.cells n, { w with offs := w.offs + n })

/-- The request is served again and again. -/
def WriteRequest.serveAll (w : WriteRequest) : List Nat → List (Option UInt8)
  | [] => []
  | room :: rooms => (w.serve room).1 ++ (w.serve room).2.serveAll rooms

/-- The bytes a stream has room for. -/
def room (r : Remote) : Nat := r.base.bufLen - 1 - r.base.dataSize

/-- The number of bytes the owner has got. -/
def taken (r : Remote) : Nat := r.base.accepted.length - r.base.dataSize

/-- What stays as it is where bytes are stored. -/
def fixed (r : Remote) :
    (Nat → List WriteRequest) × Access × List StreamClient × Bool × Bool × Nat :=
  (r.writes, r.access, r.base.clients, r.base.magic, r.base.eosInp, taken r)

theorem writes_of_fixed {r r' : Remote} (h : fixed r' = fixed r) : r'.writes = r.writes :=
    congrArg Prod.fst h

/-- The payload of a command. -/
def payloadText (encoding : Encoding) (payload : List UInt8) : Text :=
  match encoding with
  | .binary => 40 :: (decimal payload.length ++ 41 :: payload)
  | .base64 => 34 :: (writeBase64 payload ++ [34])

/-- The command raises an exception, or the stream gets the payload, at once or as the first bytes
of it at once and the others from a request, whenever there is room for them. -/
def Exact (r : Remote) (c : Nat) (payload : List UInt8) : Except Trap (WriteResult × Remote) → Prop
  | .error _ => False
  | .ok (.raised, _) => True
  | .ok (.ended _ _, r') => ∃ direct, r'.base.accepted = r.base.accepted ++ direct ∧
      (r'.writes c = r.writes c ∧ direct = payload ∨
        ∃ w, r'.writes c = r.writes c ++ [w] ∧ ∀ rooms : List Nat,
          direct.map some ++ w.serveAll rooms <+: payload.map some ∧
          (w.size ≤ rooms.sum → direct.map some ++ w.serveAll rooms = payload.map some))

/-- How many bytes of the payload have been read where the first one does not fit: `buf` has 256. -/
def readUpTo (free length : Nat) : Nat := min (256 * (free / 256 + 1)) length

/-- All goes to the stream at once, or the size is right, or the reader of BASE64 finds that it is
not. -/
def Declared (encoding : Encoding) (pending : Bool) (size length free : Nat) : Prop :=
  pending = false ∧ length ≤ free ∨ size = length ∨
    encoding = .base64 ∧ size < length ∧ (pending = true ∨ readUpTo free length ≤ size)

/-! ## Serving -/

section

variable {w : WriteRequest} {n m : Nat}

theorem cells_append (w : WriteRequest) (n m : Nat) :
    w.cells n ++ { w with offs := w.offs + n }.cells m = w.cells (n + m) := by
  unfold WriteRequest.cells
  rw [← List.map_append, ← List.range'_append_1]

/-- A request is served cell by cell, in order. -/
theorem serveAll_eq (w : WriteRequest) (rooms : List Nat) :
    w.serveAll rooms = w.cells (min rooms.sum (w.size - w.offs)) := by
  induction rooms generalizing w with
  | nil => simp [WriteRequest.serveAll, WriteRequest.cells]
  | cons room rooms ih =>
    have hMore : min room (w.size - w.offs) +
        min rooms.sum (w.size - (w.offs + min room (w.size - w.offs))) =
          min (room :: rooms).sum (w.size - w.offs) := by
      rw [List.sum_cons]
      omega
    rw [WriteRequest.serveAll, ih, ← hMore, ← cells_append]
    rfl

theorem cells_take (hOffs : w.offs = 0) (h : n ≤ w.data.length) :
    w.cells n = (w.data.take n).map some := by
  unfold WriteRequest.cells
  rw [hOffs]
  refine List.ext_getElem (by simp [h]) ?_
  intro i hi hi'
  have hLt : i < w.data.length := by
    simp only [List.length_map, List.length_range'] at hi
    omega
  simp [List.getElem?_eq_getElem hLt]

/-- A request gives exactly what is left of the payload where that is what was stored, and where
its size is that of the block. -/
theorem exact_request {payload direct rest : List UInt8} (hPayload : payload = direct ++ rest)
    (hOffs : w.offs = 0) (hData : w.data = rest) (hSize : rest.length ≤ w.size) :
    (∀ rooms : List Nat, direct.map some ++ w.serveAll rooms <+: payload.map some ∧
      (w.size ≤ rooms.sum → direct.map some ++ w.serveAll rooms = payload.map some)) ↔
      w.size = rest.length := by
  subst hPayload hData
  simp only [serveAll_eq, hOffs, Nat.sub_zero, List.map_append]
  constructor
  · intro hAll
    have hEnd := congrArg List.length ((hAll [w.size]).2 (by simp))
    simp only [List.length_append, List.length_map, WriteRequest.cells, List.length_range',
      List.sum_singleton, Nat.min_self] at hEnd
    omega
  · intro hSame rooms
    rw [cells_take hOffs (by omega)]
    refine ⟨(List.prefix_append_right_inj _).2 ((List.take_prefix _ _).map some), ?_⟩
    intro hRooms
    rw [Nat.min_eq_right hRooms, hSame, List.take_length]

end

/-! ## The reader of the payload -/

section

variable {encoding : Encoding} {payload data rest : List UInt8} {inp : ReadState}

/-- The payload is in front of the reader. -/
theorem start_payload (encoding : Encoding) (rest : Text) (hLength : payload.length < 2 ^ 64) :
    ∃ inp, jsonReadBinaryStart (payloadText encoding payload ++ rest) = .ok inp ∧
      inp.encoding = encoding ∧ payload.length ≤ inp.text.length ∧ Holds inp payload rest := by
  cases encoding with
  | binary =>
    have hRead : jsonReadUlong (decimal payload.length ++ 41 :: (payload ++ rest)) =
        .ok (payload.length, 41 :: (payload ++ rest)) :=
      readUint64_write hLength (noDigit_cons rfl _)
    refine ⟨⟨.binary, payload.length, 0, [], payload ++ rest⟩, ?_, rfl, ?_,
      .binary rfl rfl rfl (Nat.zero_add _) hLength⟩
    · have hText : payloadText .binary payload ++ rest =
          40 :: (decimal payload.length ++ 41 :: (payload ++ rest)) := by
        simp [payloadText]
      rw [hText]
      show (jsonReadUlong _ >>= _) = _
      rw [hRead]
      rfl
    · show payload.length ≤ (payload ++ rest).length
      rw [List.length_append]
      exact Nat.le_add_right _ _
  | base64 =>
    have hMore := length_le_writeBase64 payload
    refine ⟨⟨.base64, 0, 0, [], writeBase64 payload ++ 34 :: rest⟩, ?_, rfl, ?_,
      .base64 rfl rfl payload rfl rfl (Nat.zero_le _)⟩
    · have hText : payloadText .base64 payload ++ rest =
          34 :: (writeBase64 payload ++ 34 :: rest) := by
        simp [payloadText]
      rw [hText]
      rfl
    · show payload.length ≤ (writeBase64 payload ++ 34 :: rest).length
      rw [List.length_append]
      omega

theorem Holds.base64_iff (h : Holds inp data rest) (hSome : data ≠ []) :
    inp.encoding = .base64 ↔ inp.sizeStart = 0 := by
  have hPos := List.length_pos_iff.2 hSome
  rcases h with ⟨hEnc, hBuf, hText, hSize, hLt⟩ | ⟨hEnc, hZero, behind, hData, hText, hBuf⟩
  · rw [hEnc]
    exact iff_of_false (by decide) (by omega)
  · exact iff_of_true hEnc hZero

/-- `json_read_binary_end` in front of bytes that have not been read. -/
theorem readEnd_left (h : Holds inp data rest) (hSome : data ≠ []) :
    jsonReadBinaryEnd inp =
      if inp.sizeStart = 0 then .error (.raise .jsonSyntax) else .error .fault := by
  have hPos := List.length_pos_iff.2 hSome
  rcases h with ⟨hEnc, hBuf, hText, hSize, hLt⟩ | ⟨hEnc, hZero, behind, hData, hText, hBuf⟩
  · have hLess : inp.sizeStart ≠ inp.sizeDone := by omega
    have hNotZero : inp.sizeStart ≠ 0 := by omega
    rw [jsonReadBinaryEnd, if_neg (not_not_intro hBuf), hEnc, if_neg hNotZero]
    exact if_neg hLess
  · rw [jsonReadBinaryEnd, if_pos hZero, hEnc]
    by_cases hNone : inp.buf = []
    · rw [if_neg (not_not_intro hNone), hText]
      rw [hNone, List.nil_append] at hData
      have hHead : ∃ c t, writeBase64 behind ++ 34 :: rest = c :: t ∧ c ≠ 34 := by
        have hPlain := writeBase64_plain behind
        have hMore := length_le_writeBase64 behind
        cases hWrite : writeBase64 behind with
        | nil =>
          rw [hWrite, ← hData, List.length_nil] at hMore
          omega
        | cons c t =>
          rw [hWrite] at hPlain
          exact ⟨c, t ++ 34 :: rest, rfl, (hPlain c List.mem_cons_self).1⟩
      obtain ⟨c, t, hCons, hc⟩ := hHead
      rw [hCons]
      exact if_neg hc
    · rw [if_pos hNone]

end

/-! ## The loop -/

section

variable {job : WriteJob} {block data rest : List UInt8} {size fuel : Nat}

theorem u64_sub {n m : Nat} (hm : m ≤ n) (hn : n < 2 ^ 64) :
    u64 (n + (2 ^ 64 - u64 m)) = n - m := by
  have hSum : n + (2 ^ 64 - m) = (n - m) + 2 ^ 64 := by omega
  have hMod : u64 m = m := Nat.mod_eq_of_lt (by omega)
  rw [hMod, hSum, u64, Nat.add_mod_right, Nat.mod_eq_of_lt (by omega)]

/-- The rest of the payload goes to the block, up to its end. -/
theorem writeLoop_data (hData : job.data = some block) (hHolds : Holds job.inp data rest)
    (hBlock : block.length ≤ blockSize size job.offs) (hFuel : data.length < fuel) :
    ∃ inp, writeLoop size fuel job = .ok (false, { job with
        data := some (block ++ data.take (blockSize size job.offs - block.length))
        inp := inp }) ∧
      inp.sizeStart = job.inp.sizeStart ∧
      Holds inp (data.drop (blockSize size job.offs - block.length)) rest := by
  induction fuel generalizing job block data with
  | zero => omega
  | succ fuel ih =>
    have hLen := u64_sub hBlock (Nat.mod_lt _ (by decide))
    obtain ⟨inp, hRun, hStart, hNext⟩ :=
      readData_holds hHolds (blockSize size job.offs - block.length)
    rw [writeLoop, hData]
    simp only [hLen, hRun]
    generalize hRoom : blockSize size job.offs - block.length = left at hNext
    by_cases hNone : data.take left = []
    · rw [if_pos hNone, hNone, List.append_nil]
      refine ⟨inp, ?_, hStart, hNext⟩
      rw [← hData]
    · have hSome : 0 < (data.take left).length := List.length_pos_iff.2 hNone
      have hLe : (data.take left).length ≤ left := List.length_take_le _ _
      rw [if_neg hNone, if_neg (by omega)]
      have hBoth : (block ++ data.take left).length = block.length + (data.take left).length :=
        List.length_append
      obtain ⟨inp', hMore, hStart', hEnd⟩ := @ih
        { job with data := some (block ++ data.take left), inp := inp } (block ++ data.take left)
        (data.drop left) rfl hNext (by rw [hBoth]; show _ ≤ blockSize size job.offs; omega) (by
          rw [List.length_drop]
          rw [List.length_take] at hSome
          omega)
      have hLeft : blockSize size job.offs - (block ++ data.take left).length =
          left - (data.take left).length := by
        rw [hBoth]
        omega
      obtain ⟨hTake, hDrop⟩ := take_take_drop data (Nat.le_refl left)
      rw [hLeft, List.append_assoc, hTake] at hMore
      rw [hLeft, hDrop] at hEnd
      exact ⟨inp', hMore, hStart'.trans hStart, hEnd⟩

/-- What the direct part of the loop needs of the stream. -/
structure Writable (r : Remote) : Prop where
  ring    : RingOk r.base
  counted : Counted r.base
  access  : r.access = .remoteWrite
  magic   : r.base.magic = true
  open_   : r.base.eosInp = false

/-- A chunk is stored as far as there is room. -/
theorem addData_room {r : Remote} (h : Writable r) (chunk : List UInt8)
    (hSmall : r.base.accepted.length + chunk.length < 2 ^ 64) :
    ∃ r', addData r chunk false = .ok (some (min (room r) chunk.length), r') ∧ Writable r' ∧
      fixed r' = fixed r ∧ room r' = room r - min (room r) chunk.length ∧
      r'.base.accepted = r.base.accepted ++ chunk.take (min (room r) chunk.length) := by
  have hSize : acceptedSize r.base chunk = min (room r) chunk.length := h.ring.acceptedSize_eq chunk
  have hFits : r.base.accepted.length + acceptedSize r.base chunk < 2 ^ 64 := by omega
  obtain ⟨hRing, hCounted, -, hMagic, hClients, hAccepted, hData, hLen⟩ :=
    @storeUpTo_spec _ chunk false h.ring h.counted hFits
  have hEos : (storeUpTo r.base chunk false).eosInp = r.base.eosInp := by
    unfold storeUpTo
    rw [if_neg fun hEnd => Bool.false_ne_true hEnd.1]
    rfl
  rw [addData_write h.magic h.access h.ring, if_neg (by rw [h.open_]; exact Bool.false_ne_true),
    if_neg (by omega)]
  rw [hSize] at hAccepted hData
  have hTaken :
    (storeUpTo r.base chunk false).accepted.length -
    (storeUpTo r.base chunk false).dataSize = taken r := by
    rw [hAccepted, hData, List.length_append, List.length_take,
      Nat.min_eq_left (Nat.min_le_right _ _)]
    exact Nat.add_sub_add_right _ _ _
  refine ⟨{ r with base := storeUpTo r.base chunk false, dataAvailablePosted := true },
    by rw [hSize], ⟨hRing, hCounted, h.access, hMagic.trans h.magic, hEos.trans h.open_⟩, ?_, ?_,
    hAccepted⟩
  · rw [fixed, fixed, taken, hTaken, hMagic, hClients, hEos]
  · show (storeUpTo r.base chunk false).bufLen - 1 - (storeUpTo r.base chunk false).dataSize = _
    rw [hData, hLen]
    unfold room
    omega

/-- The first request of a client is served as far as the stream has room for it. A cell without
a byte gives whatever its memory holds. -/
theorem serveClient_bytes (fresh : Nat → UInt8) {r : Remote} (h : Writable r) {c : Nat}
    {w : WriteRequest} {ws : List WriteRequest} (hQueue : r.writes c = w :: ws)
    (hEos : w.eos = false) (hSmall : r.base.accepted.length + (w.size - w.offs) < 2 ^ 64) :
    ∃ r' bytes, serveClient fresh r c = .ok r' ∧ r'.base.accepted = r.base.accepted ++ bytes ∧
      List.Forall₂ (fun cell b => ∀ a ∈ cell, a = b) (w.serve (room r)).1 bytes ∧
      r'.writes c = if w.size ≤ (w.serve (room r)).2.offs then ws
        else (w.serve (room r)).2 :: ws := by
  have hLength : (w.bytes fresh).length = w.size - w.offs := by simp [WriteRequest.bytes]
  obtain ⟨r', hAdd, -, -, -, hAccepted⟩ :=
    addData_room h (w.bytes fresh) (by rw [hLength]; exact hSmall)
  rw [hLength, ← hEos] at hAdd
  rw [hLength] at hAccepted
  have hCells : List.Forall₂ (fun cell b => ∀ a ∈ cell, a = b) (w.serve (room r)).1
      ((w.bytes fresh).take (min (room r) (w.size - w.offs))) := by
    unfold WriteRequest.bytes
    have hTake : (List.range' w.offs (w.size - w.offs)).take (min (room r) (w.size - w.offs)) =
        List.range' w.offs (min (room r) (w.size - w.offs)) := by
      rw [List.take_range'_of_length_ge (Nat.min_le_right _ _)]
    rw [← List.map_take, hTake]
    refine List.forall₂_map_left_iff.2 (List.forall₂_map_right_iff.2 (List.forall₂_same.2 ?_))
    intro i _ a ha
    rw [List.getD_eq_getElem?_getD, Option.mem_def.1 ha]
    rfl
  have hServe : serveClient fresh r c = .ok (if w.size ≤ (w.serve (room r)).2.offs
      then (r'.reply c w.token none).setWrites c ws
      else r'.setWrites c ((w.serve (room r)).2 :: ws)) := by
    unfold serveClient
    rw [hQueue]
    simp only
    rw [hAdd]
    exact (apply_ite Except.ok _ _ _).symm
  refine ⟨_, _, hServe, ?_, hCells, ?_⟩
  · split
    · exact hAccepted
    · exact hAccepted
  · split
    · exact Function.update_self _ _ _
    · exact Function.update_self _ _ _

/-- A chunk goes to the stream, or the end of it to a new block. -/
theorem writeDirect_eq (size : Nat) (hErr : job.err = none) (hReady : Writable job.stream)
    (chunk : List UInt8) (hSmall : job.stream.base.accepted.length + chunk.length < 2 ^ 64) :
    ∃ stream, Writable stream ∧ fixed stream = fixed job.stream ∧
      room stream = room job.stream - min (room job.stream) chunk.length ∧
      stream.base.accepted =
        job.stream.base.accepted ++ chunk.take (min (room job.stream) chunk.length) ∧
      writeDirect size chunk job =
        if chunk.length ≤ room job.stream then
          .ok { job with stream := stream, offs := job.offs + chunk.length }
        else if blockSize size (job.offs + room job.stream) < chunk.length - room job.stream then
          .error .block
        else .ok { job with
          stream := stream
          offs := job.offs + room job.stream
          data := some (chunk.drop (room job.stream)) } := by
  obtain ⟨stream, hAdd, hReady', hWrites, hRoom, hAccepted⟩ := addData_room hReady chunk hSmall
  refine ⟨stream, hReady', hWrites, hRoom, hAccepted, ?_⟩
  unfold writeDirect
  rw [if_neg (not_not_intro hErr), hAdd]
  show (if _ then _ else _) = _
  rw [if_neg (by omega)]
  by_cases hFits : chunk.length ≤ room job.stream
  · rw [Nat.min_eq_right hFits, if_pos rfl, if_pos hFits]
    rfl
  · rw [Nat.min_eq_left (Nat.le_of_not_le hFits), if_neg (by omega), if_neg hFits]
    rfl

/-- A round that reads a chunk. -/
theorem writeLoop_chunk (hData : job.data = none) (hHolds : Holds job.inp data rest)
    (hSome : data ≠ []) :
    ∃ inp, inp.sizeStart = job.inp.sizeStart ∧ Holds inp (data.drop 256) rest ∧
      writeLoop size (fuel + 1) job = (do
        let job ← writeDirect size (data.take 256) { job with inp := inp }
        writeLoop size fuel job) := by
  obtain ⟨inp, hRun, hStart, hNext⟩ := readData_holds hHolds 256
  refine ⟨inp, hStart, hNext, ?_⟩
  have hChunk : data.take 256 ≠ [] := by
    intro hNone
    exact hSome ((List.take_eq_nil_iff.1 hNone).resolve_left (by decide))
  rw [writeLoop, hData]
  simp only [hRun]
  rw [if_neg hChunk]

/-- All of the payload goes to the stream. -/
theorem writeLoop_fits (hData : job.data = none) (hErr : job.err = none)
    (hReady : Writable job.stream) (hHolds : Holds job.inp data rest)
    (hSmall : job.stream.base.accepted.length + data.length < 2 ^ 64)
    (hFuel : data.length < fuel) (hFits : data.length ≤ room job.stream) :
    ∃ job', writeLoop size fuel job = .ok (false, job') ∧ job'.err = none ∧ job'.data = none ∧
      fixed job'.stream = fixed job.stream ∧ Holds job'.inp [] rest ∧
      job'.stream.base.accepted = job.stream.base.accepted ++ data := by
  induction fuel generalizing job data with
  | zero => omega
  | succ fuel ih =>
    by_cases hNone : data = []
    · subst hNone
      obtain ⟨inp, hRun, hStart, hNext⟩ := readData_holds hHolds 256
      refine ⟨{ job with inp := inp }, ?_, hErr, hData, rfl, hNext, (List.append_nil _).symm⟩
      rw [writeLoop, hData]
      simp only [hRun]
      rw [List.take_nil, if_pos rfl, ← hData]
    obtain ⟨inp, hStart, hNext, hLoop⟩ := @writeLoop_chunk _ _ _ size fuel hData hHolds hNone
    have hPos := List.length_pos_iff.2 hNone
    have hChunk : (data.take 256).length = min 256 data.length := List.length_take
    have hRest : (data.drop 256).length = data.length - 256 := List.length_drop
    obtain ⟨stream, hReady', hWrites, hRoom, hAccepted, hDirect⟩ :=
      @writeDirect_eq { job with inp := inp } size hErr hReady (data.take 256) (by
        show job.stream.base.accepted.length + _ < _
        omega)
    dsimp only at hWrites hRoom hAccepted hDirect
    rw [Nat.min_eq_right (by omega), List.take_length] at hAccepted
    rw [if_pos (by omega)] at hDirect
    obtain ⟨job', hRun, hErr', hData', hWrites', hEnd, hAll⟩ := @ih
      { job with inp := inp, stream := stream, offs := job.offs + (data.take 256).length }
      (data.drop 256) hData hErr hReady' hNext (by
        show stream.base.accepted.length + _ < _
        rw [hAccepted, List.length_append]
        omega) (by omega) (by
        show _ ≤ room stream
        omega)
    refine ⟨job', ?_, hErr', hData', hWrites'.trans hWrites, hEnd, ?_⟩
    · rw [hLoop, hDirect]
      exact hRun
    · rw [hAll, hAccepted, List.append_assoc, List.take_append_drop]

/-- The payload fills the stream; the block gets the others, up to its end. -/
theorem writeLoop_full (hData : job.data = none) (hErr : job.err = none)
    (hReady : Writable job.stream) (hHolds : Holds job.inp data rest)
    (hSmall : job.stream.base.accepted.length + data.length < 2 ^ 64)
    (hFuel : data.length < fuel) (hFull : room job.stream < data.length) :
    if blockSize size (job.offs + room job.stream) <
        readUpTo (room job.stream) data.length - room job.stream
    then writeLoop size fuel job = .error .block
    else ∃ job', writeLoop size fuel job = .ok (false, job') ∧ job'.err = none ∧
      job'.offs = job.offs + room job.stream ∧
      job'.data = some ((data.drop (room job.stream)).take (blockSize size job'.offs)) ∧
      fixed job'.stream = fixed job.stream ∧ job'.inp.sizeStart = job.inp.sizeStart ∧
      Holds job'.inp ((data.drop (room job.stream)).drop (blockSize size job'.offs)) rest ∧
      job'.stream.base.accepted = job.stream.base.accepted ++ data.take (room job.stream) := by
  induction fuel generalizing job data with
  | zero => omega
  | succ fuel ih =>
    have hNone : data ≠ [] := List.length_pos_iff.1 (by omega)
    obtain ⟨inp, hStart, hNext, hLoop⟩ := @writeLoop_chunk _ _ _ size fuel hData hHolds hNone
    have hChunk : (data.take 256).length = min 256 data.length := List.length_take
    have hRest : (data.drop 256).length = data.length - 256 := List.length_drop
    obtain ⟨stream, hReady', hWrites, hRoom, hAccepted, hDirect⟩ :=
      @writeDirect_eq { job with inp := inp } size hErr hReady (data.take 256) (by
        show job.stream.base.accepted.length + _ < _
        omega)
    dsimp only at hWrites hRoom hAccepted hDirect
    rw [hLoop, hDirect]
    by_cases hFits : (data.take 256).length ≤ room job.stream
    · have hWhole : (data.take 256).length = 256 := by omega
      rw [if_pos hFits]
      rw [Nat.min_eq_right hFits] at hRoom hAccepted
      rw [List.take_length] at hAccepted
      rw [hWhole] at hRoom ⊢
      have hOffs : job.offs + 256 + room stream = job.offs + room job.stream := by omega
      have hRead : readUpTo (room stream) (data.drop 256).length - room stream =
          readUpTo (room job.stream) data.length - room job.stream := by
        unfold readUpTo
        omega
      have hRest' := @ih
        { job with inp := inp, stream := stream, offs := job.offs + 256 } (data.drop 256) hData hErr
        hReady' hNext (by
          show stream.base.accepted.length + _ < _
          rw [hAccepted, List.length_append]
          omega) (by omega) (by
          show room stream < _
          omega)
      rw [hOffs, hRead] at hRest'
      have hDrop : (data.drop 256).drop (room stream) = data.drop (room job.stream) := by
        rw [List.drop_drop]
        congr 1
        omega
      have hTake : data.take 256 ++ (data.drop 256).take (room stream) =
          data.take (room job.stream) := by
        rw [← List.take_add]
        congr 1
        omega
      by_cases hOver : blockSize size (job.offs + room job.stream) <
          readUpTo (room job.stream) data.length - room job.stream
      · rw [if_pos hOver] at hRest' ⊢
        exact hRest'
      · rw [if_neg hOver, hDrop] at hRest'
        rw [if_neg hOver]
        obtain ⟨job', hRun, hErr', hOffs', hData', hWrites', hStart', hEnd, hAll⟩ := hRest'
        refine ⟨job', hRun, hErr', hOffs', hData', hWrites'.trans hWrites,
          hStart'.trans hStart, hEnd,
          ?_⟩
        rw [hAll, hAccepted, List.append_assoc, hTake]
    · rw [if_neg hFits]
      have hRead : readUpTo (room job.stream) data.length = (data.take 256).length := by
        unfold readUpTo
        omega
      rw [hRead]
      by_cases hOver : blockSize size (job.offs + room job.stream) <
          (data.take 256).length - room job.stream
      · rw [if_pos hOver, if_pos hOver]
        rfl
      rw [if_neg hOver, if_neg hOver]
      rw [Nat.min_eq_left (Nat.le_of_not_le hFits)] at hAccepted
      have hLess : room job.stream ≤ (data.take 256).length := by omega
      have hSplit : data.drop (room job.stream) =
          (data.take 256).drop (room job.stream) ++ data.drop 256 := by
        rw [← List.drop_append_of_le_length hLess, List.take_append_drop]
      have hBlock : ((data.take 256).drop (room job.stream)).length ≤
          blockSize size (job.offs + room job.stream) := by
        rw [List.length_drop]
        omega
      obtain ⟨inp', hRun, hStart', hEnd⟩ := @writeLoop_data
        { job with
          inp := inp
          stream := stream
          offs := job.offs + room job.stream
          data := some ((data.take 256).drop (room job.stream)) }
        _ _ rest size fuel rfl hNext hBlock (by omega)
      refine ⟨_, hRun, hErr, rfl, ?_, hWrites, hStart'.trans hStart, ?_, ?_⟩
      · rw [hSplit, List.take_append, List.take_of_length_le hBlock]
      · rw [hSplit, List.drop_append, List.drop_eq_nil_of_le hBlock]
        exact hEnd
      · show stream.base.accepted = _
        rw [hAccepted, List.take_take, Nat.min_eq_left (by omega)]

end

/-! ## The end of the command -/

section

variable {r : Remote} {c size : Nat} {token payload direct left : List UInt8} {text rest : Text}
  {job : WriteJob} {inp : ReadState} {encoding : Encoding}

/-- The variables of `virtual_stream_write` in front of its loop. -/
def firstJob (r : Remote) (c : Nat) (inp : ReadState) : WriteJob :=
  ⟨writeError r c, 0, if writeError r c = none ∧ r.writes c ≠ [] then some [] else none, inp, r⟩

theorem write_of_loop (token : List UInt8) (hStart : jsonReadBinaryStart text = .ok inp)
    (hLoop : writeLoop size (inp.sizeStart + inp.text.length + 1) (firstJob r c inp) =
      .ok (false, job)) :
    virtualStreamWrite r c token size text =
      match jsonReadBinaryEnd job.inp with
      | .error .fault => .error .jsonAssertion
      | .error (.raise _) => .ok (.raised, job.stream)
      | .ok rest => .ok (.ended job.err rest, finishWrite size c token job) := by
  unfold virtualStreamWrite
  simp only [hStart]
  show (writeLoop size _ (firstJob r c inp) >>= _) = _
  rw [hLoop]
  rfl

theorem write_of_block (token : List UInt8) (hStart : jsonReadBinaryStart text = .ok inp)
    (hLoop : writeLoop size (inp.sizeStart + inp.text.length + 1) (firstJob r c inp) =
      .error .block) : virtualStreamWrite r c token size text = .error .block := by
  unfold virtualStreamWrite
  simp only [hStart]
  show (writeLoop size _ (firstJob r c inp) >>= _) = _
  rw [hLoop]
  rfl

/-- All went to the stream. -/
theorem exact_direct (hErr : job.err = none) (hData : job.data = none)
    (hWrites : fixed job.stream = fixed r)
    (hAll : job.stream.base.accepted = r.base.accepted ++ payload) :
    Exact r c payload (.ok (.ended job.err rest, finishWrite size c token job)) := by
  unfold finishWrite
  rw [hData, hErr]
  exact ⟨payload, hAll, .inl ⟨congrFun (writes_of_fixed hWrites) c, rfl⟩⟩

/-- The rest went to a request. -/
theorem exact_queued (hData : job.data = some left)
    (hLeft : left.length ≤ blockSize size job.offs) (hWrites : fixed job.stream = fixed r)
    (hAll : job.stream.base.accepted = r.base.accepted ++ direct)
    (hPayload : payload = direct ++ left) :
    Exact r c payload (.ok (.ended job.err rest, finishWrite size c token job)) ↔
      blockSize size job.offs = left.length := by
  have hQueue : (finishWrite size c token job).writes c =
      r.writes c ++ [⟨strlcpy token 256, left, 0, blockSize size job.offs, false⟩] := by
    unfold finishWrite Remote.setWrites
    rw [hData]
    show Function.update job.stream.writes c _ c = _
    rw [Function.update_self, writes_of_fixed hWrites]
  have hSame : (finishWrite size c token job).base.accepted = r.base.accepted ++ direct := by
    unfold finishWrite
    rw [hData]
    exact hAll
  have hRequest := @exact_request ⟨strlcpy token 256, left, 0, blockSize size job.offs, false⟩
    payload direct left hPayload rfl rfl hLeft
  constructor
  · rintro ⟨direct', hDirect, hOne | ⟨w, hMore, hServe⟩⟩
    · rw [hQueue] at hOne
      exact absurd hOne.1 (by simp)
    · obtain rfl := List.append_cancel_left (hSame.symm.trans hDirect)
      rw [hQueue] at hMore
      obtain rfl := List.singleton_inj.1 (List.append_cancel_left hMore)
      exact hRequest.1 hServe
  · intro hEq
    exact ⟨direct, hSame, .inr ⟨_, hQueue, hRequest.2 hEq⟩⟩

theorem blockSize_le (h : c ≤ size) (hSize : size < 2 ^ 64) : blockSize size c = size - c :=
  u64_sub h hSize

/-- Where more has gone to the stream than was declared, the size of the block wraps around. -/
theorem blockSize_gt (h : size < c) (hc : c < 2 ^ 64) : blockSize size c = size + 2 ^ 64 - c := by
  have hMod : u64 c = c := Nat.mod_eq_of_lt hc
  unfold blockSize
  rw [hMod, u64, Nat.mod_eq_of_lt (by omega)]
  omega

/-- The end of a command that has left something to a block: the block is as large as what is
left, or the reader finds that something has not been read. -/
theorem exact_block (token : List UInt8) (hStart : jsonReadBinaryStart text = .ok inp)
    (hEncoding : left ≠ [] → (encoding = .base64 ↔ inp.sizeStart = 0))
    (hLoop : writeLoop size (inp.sizeStart + inp.text.length + 1) (firstJob r c inp) =
      .ok (false, job)) (hData : job.data = some (left.take (blockSize size job.offs)))
    (hSame : job.inp.sizeStart = inp.sizeStart)
    (hHolds : Holds job.inp (left.drop (blockSize size job.offs)) rest)
    (hWrites : fixed job.stream = fixed r)
    (hAll : job.stream.base.accepted = r.base.accepted ++ direct)
    (hPayload : payload = direct ++ left) :
    Exact r c payload (virtualStreamWrite r c token size text) ↔
      blockSize size job.offs = left.length ∨
        blockSize size job.offs < left.length ∧ encoding = .base64 := by
  rw [write_of_loop token hStart hLoop]
  rcases Nat.lt_or_ge (blockSize size job.offs) left.length with hLess | hAtLeast
  · have hSome : left.drop (blockSize size job.offs) ≠ [] := by
      rw [Ne, List.drop_eq_nil_iff]
      omega
    rw [readEnd_left hHolds hSome, hSame, hEncoding (List.length_pos_iff.1 (by omega))]
    by_cases hZero : inp.sizeStart = 0
    · rw [if_pos hZero]
      exact ⟨fun _ => .inr ⟨hLess, hZero⟩, fun _ => trivial⟩
    · rw [if_neg hZero]
      refine ⟨fun hFalse => hFalse.elim, fun hEither => ?_⟩
      rcases hEither with hEq | hBoth
      · omega
      · exact absurd hBoth.2 hZero
  · rw [List.drop_eq_nil_of_le hAtLeast] at hHolds
    rw [List.take_of_length_le hAtLeast] at hData
    rw [readEnd_holds hHolds]
    refine (exact_queued hData hAtLeast hWrites hAll hPayload).trans ?_
    omega

end

/-- The stream gets exactly the payload, or the command raises an exception, where the declared
size is right or not used, or where the reader of BASE64 finds that it is too small. -/
theorem write_exact_iff {r : Remote} (h : Good r) {c size : Nat} (token : List UInt8)
    (encoding : Encoding) (payload : List UInt8) (rest : Text) (hErr : writeError r c = none)
    (hOpen : r.base.eosInp = false) (hSize : size < 2 ^ 64)
    (hSmall : r.base.accepted.length + payload.length < 2 ^ 64) :
    Exact r c payload (virtualStreamWrite r c token size (payloadText encoding payload ++ rest)) ↔
      Declared encoding (!(r.writes c).isEmpty) size payload.length (room r) := by
  obtain ⟨inp, hStart, hEnc, hText, hHolds⟩ :=
    @start_payload payload encoding rest (by omega)
  obtain ⟨hAccess, hMagic⟩ := writeError_none h hErr
  have hReady : Writable r := ⟨h.ring, h.counted, hAccess, hMagic, hOpen⟩
  have hFuel : payload.length < inp.sizeStart + inp.text.length + 1 := by omega
  have hEncoding : payload ≠ [] → (encoding = .base64 ↔ inp.sizeStart = 0) := by
    intro hSome
    rw [← hEnc]
    exact Holds.base64_iff hHolds hSome
  -- an earlier request of the client decides whether bytes can go to the stream directly
  by_cases hPending : r.writes c = []
  · have hJob : firstJob r c inp = ⟨none, 0, none, inp, r⟩ := by
      unfold firstJob
      rw [if_neg fun hBoth => hBoth.2 hPending, hErr]
    have hNone : (!(r.writes c).isEmpty) = false := by rw [hPending]; rfl
    rw [hNone]
    by_cases hFits : payload.length ≤ room r
    · obtain ⟨job, hLoop, hErr', hData, hWrites, hEnd, hAll⟩ := @writeLoop_fits
        ⟨none, 0, none, inp, r⟩ _ rest size _ rfl rfl hReady hHolds hSmall hFuel hFits
      rw [← hJob] at hLoop
      rw [write_of_loop token hStart hLoop, readEnd_holds hEnd]
      exact iff_of_true (exact_direct hErr' hData hWrites hAll) (.inl ⟨rfl, hFits⟩)
    have hZero : 0 + room r = room r := Nat.zero_add _
    have hFull := @writeLoop_full ⟨none, 0, none, inp, r⟩ _ rest size _ rfl rfl hReady hHolds hSmall
      hFuel (Nat.lt_of_not_le hFits)
    dsimp only at hFull
    rw [hZero] at hFull
    have hRead : room r < readUpTo (room r) payload.length ∧
        readUpTo (room r) payload.length ≤ payload.length := by
      unfold readUpTo
      omega
    -- the size of the block is computed from the declared size, and wraps when that is smaller
    have hCap : size < room r ∧ blockSize size (room r) = size + 2 ^ 64 - room r ∨
        room r ≤ size ∧ blockSize size (room r) = size - room r := by
      rcases Nat.lt_or_ge size (room r) with hLess | hGe
      · exact .inl ⟨hLess, blockSize_gt hLess (by omega)⟩
      · exact .inr ⟨hGe, blockSize_le hGe hSize⟩
    unfold Declared
    by_cases hOver : blockSize size (room r) < readUpTo (room r) payload.length - room r
    -- the block is too small: the loop stores outside of it
    · rw [if_pos hOver, ← hJob] at hFull
      rw [write_of_block token hStart hFull]
      refine iff_of_false id ?_
      rintro (hAll | hSame | ⟨-, hLess, hEnough | hEnough⟩)
      · exact hFits hAll.2
      · omega
      · cases hEnough
      · omega
    · rw [if_neg hOver] at hFull
      obtain ⟨job, hLoop, -, hOffs, hData, hWrites, hSame, hEnd, hAll⟩ := hFull
      rw [← hJob] at hLoop
      have hLeft : (payload.drop (room r)).length = payload.length - room r := List.length_drop
      have hSplit := (List.take_append_drop (room r) payload).symm
      have hBlock := @exact_block r c size payload _ _ _ rest job inp encoding token hStart
        (fun _ => hEncoding (List.length_pos_iff.1 (by omega))) hLoop hData hSame hEnd hWrites hAll
        hSplit
      rw [hOffs, hLeft] at hBlock
      refine hBlock.trans ?_
      constructor
      · rintro (hEq | ⟨hLess, hBase⟩)
        · exact .inr (.inl (by omega))
        · exact .inr (.inr ⟨hBase, by omega, .inr (by omega)⟩)
      · rintro (hAll | hEq | ⟨hBase, hLess, hEnough | hEnough⟩)
        · exact absurd hAll.2 hFits
        · exact .inl (by omega)
        · cases hEnough
        · exact .inr ⟨by omega, hBase⟩
  · have hJob : firstJob r c inp = ⟨none, 0, some [], inp, r⟩ := by
      unfold firstJob
      rw [if_pos ⟨hErr, hPending⟩, hErr]
    have hSome : (!(r.writes c).isEmpty) = true := by
      rw [Bool.not_eq_true', List.isEmpty_eq_false_iff]
      exact hPending
    have hCap : blockSize size 0 = size := blockSize_le (Nat.zero_le _) hSize
    obtain ⟨inp', hLoop, hSame, hEnd⟩ := @writeLoop_data ⟨none, 0, some [], inp, r⟩ [] _ rest size _
      rfl hHolds (Nat.zero_le _) hFuel
    rw [← hJob] at hLoop
    dsimp only at hLoop hSame hEnd
    rw [List.length_nil, Nat.sub_zero, List.nil_append] at hLoop
    rw [List.length_nil, Nat.sub_zero] at hEnd
    have hBlock := @exact_block r c size payload [] payload _ rest _ inp encoding token hStart
      hEncoding hLoop rfl hSame hEnd rfl (List.append_nil _).symm rfl
    have hOffs : (firstJob r c inp).offs = 0 := congrArg WriteJob.offs hJob
    dsimp only at hBlock
    rw [hOffs, hCap] at hBlock
    rw [hSome]
    refine hBlock.trans ?_
    unfold Declared
    constructor
    · rintro (hEq | ⟨hLess, hBase⟩)
      · exact .inr (.inl hEq)
      · exact .inr (.inr ⟨hBase, hLess, .inl rfl⟩)
    · rintro (⟨hFalse, -⟩ | hEq | ⟨hBase, hLess, -⟩)
      · cases hFalse
      · exact .inl hEq
      · exact .inr ⟨hLess, hBase⟩

/-- A stream with a buffer of `bufLen` bytes, to which one client has connected. -/
def connected (bufLen : Nat) : Remote :=
  virtualStreamConnect ⟨0, .remoteWrite, virtualStreamCreate [] [83] bufLen, false, false,
    fun _ => [], []⟩ 1

theorem good_connected {bufLen : Nat} (hLen : bufLen < 2 ^ 32) : Good (connected bufLen) := by
  have hInv := inv_create List.nodup_nil [83] hLen
  exact Good.connect ⟨fun _ => hInv, hInv.ring, hInv.counted,
    fun hPosted => absurd hPosted Bool.false_ne_true⟩ 1

/-- Four bytes of six go to the stream, the others to a request. -/
theorem write_exact_iff_six : Exact (connected 4) 1 (ascii "abcdef")
    (virtualStreamWrite (connected 4) 1 [49] 6 (payloadText .binary (ascii "abcdef") ++ [0])) :=
  (write_exact_iff (good_connected (by decide)) [49] .binary (ascii "abcdef") [0] rfl rfl
    (by decide) (by decide)).2 (.inr (.inl rfl))

/-- Seven bytes, of which five are declared and four fit: three are stored to a block of one. -/
theorem not_write_exact : ¬ ∀ r : Remote, Good r → ∀ (c size : Nat) (token : List UInt8)
    (encoding : Encoding) (payload : List UInt8) (rest : Text), writeError r c = none →
    r.base.eosInp = false → size < 2 ^ 64 → r.base.accepted.length + payload.length < 2 ^ 64 →
    Exact r c payload
      (virtualStreamWrite r c token size (payloadText encoding payload ++ rest)) := by
  intro hAll
  have hRun : virtualStreamWrite (connected 4) 1 [49] 5
      (payloadText .binary (ascii "abcdefg") ++ [0]) = .error .block := rfl
  have hExact := hAll (connected 4) (good_connected (by decide)) 1 5 [49] .binary
    (ascii "abcdefg") [0] rfl rfl (by decide) (by decide)
  rw [hRun] at hExact
  exact hExact

end TcfAgent.StreamCommands
