import TcfAgent.Framework.Base64
import TcfAgent.Framework.JsonIntegers

/-!
# Binary data in JSON

`framework/json.c`: `json_write_binary_data` gets the data in chunks, `json_read_binary_data` gives
it in chunks of other sizes. Data that are written into a stream that supports it stand behind
their size, others in BASE64, with up to two bytes that are carried over to the next call.

`Holds` says of a reader what it has not given yet: whatever the encoding is, a call takes as much
of it as it is asked for.

Main results

* `writeBinary_eq`     — chunks are written like their concatenation
* `readData_holds`     — a call gives the next bytes
* `binary_read_back`   — data are read as they were written
-/

namespace TcfAgent.JsonBuffers

open TcfAgent.Lib TcfAgent.JsonString TcfAgent.JsonText

/-! ## Writing -/

/-- `ENCODING_BINARY`, `ENCODING_BASE64` -/
inductive Encoding where
  | binary
  | base64
deriving DecidableEq, Repr

/-- `JsonWriteBinaryState`: `buf` are its first `rem` bytes. -/
structure WriteState where
  encoding  : Encoding
  sizeStart : Nat
  sizeDone  : Nat
  buf       : List UInt8
deriving DecidableEq, Repr

/-- `json_write_binary_start` -/
def jsonWriteBinaryStart (supportsZeroCopy : Bool) (size : Nat) : Text × WriteState :=
  if supportsZeroCopy = true ∧ 0 < size then
    (40 :: (decimal size ++ [41]), ⟨.binary, size, 0, []⟩)
  else ([34], ⟨.base64, size, 0, []⟩)

/-- The bytes that fill up `state->buf`; a full one is written. -/
def fillBuf (buf data : List UInt8) : Text × List UInt8 × List UInt8 :=
  if buf = [] then ([], [], data)
  else
    let full := buf ++ data.take (3 - buf.length)
    if 3 ≤ full.length then (writeBase64 full, [], data.drop (3 - buf.length))
    else ([], full, data.drop (3 - buf.length))

/-- `json_write_binary_data`: what is written; `len` is less in the end where the encoding is
BASE64. -/
def jsonWriteBinaryData (s : WriteState) (data : List UInt8) : Result (Text × WriteState) :=
  if data = [] then .ok ([], s)
  else
    match s.encoding with
    | .binary => .ok (data, { s with sizeDone := u64 (s.sizeDone + data.length) })
    | .base64 =>
      match fillBuf s.buf data with
      | (out, buf, []) => .ok (out, { s with buf })
      | (out, buf, data) =>
        if buf ≠ [] then .error .fault
        else
          let len := data.length - data.length % 3
          .ok (out ++ writeBase64 (data.take len),
            { s with sizeDone := u64 (s.sizeDone + len), buf := data.drop len })

/-- `json_write_binary_end` -/
def jsonWriteBinaryEnd (s : WriteState) : Result Text :=
  match s.encoding with
  | .binary => if s.sizeStart = s.sizeDone then .ok [] else .error .fault
  | .base64 => .ok (writeBase64 s.buf ++ [34])

/-- Calls of `json_write_binary_data`. -/
def writeChunks (s : WriteState) : List (List UInt8) → Result (Text × WriteState)
  | [] => .ok ([], s)
  | data :: chunks => do
    let (out, s) ← jsonWriteBinaryData s data
    let (more, s) ← writeChunks s chunks
    return (out ++ more, s)

/-- All that is written for the chunks. -/
def writeBinary (supportsZeroCopy : Bool) (size : Nat) (chunks : List (List UInt8)) :
    Result Text := do
  let start := jsonWriteBinaryStart supportsZeroCopy size
  let (out, s) ← writeChunks start.2 chunks
  return start.1 ++ (out ++ (← jsonWriteBinaryEnd s))

/-! ## Reading -/

/-- `JsonReadBinaryState` with its stream: `buf` are the first `rem` bytes. -/
structure ReadState where
  encoding  : Encoding
  sizeStart : Nat
  sizeDone  : Nat
  buf       : List UInt8
  text      : Text
deriving DecidableEq, Repr

/-- `json_test_char` of a character in front of which no white space is skipped. -/
def testChar (x : UInt8) : Text → Result Text
  | c :: text => if c = x then .ok text else .error (.raise .jsonSyntax)
  | [] => .error (.raise .jsonSyntax)

/-- `json_read_ulong`, of 64 bits. -/
def jsonReadUlong (text : Text) : Result (Nat × Text) := jsonReadUint64 text

/-- `json_read_binary_start` -/
def jsonReadBinaryStart (text : Text) : Result ReadState :=
  match text.dropWhile isSpace with
  | 40 :: text => do
    let (size, text) ← jsonReadUlong text
    return ⟨.binary, size, 0, [], ← testChar 41 text⟩
  | 34 :: text => .ok ⟨.base64, 0, 0, [], text⟩
  | 110 :: text => do return ⟨.binary, 0, 0, [], ← readNull text⟩
  | _ => .error (.raise .jsonSyntax)

/-- The loop over `inp`; behind the end of the stream there is `MARKER_EOM`. -/
def readRaw : (len : Nat) → Text → Text × Text
  | 0, text => ([], text)
  | len + 1, text =>
    let (data, rest) := readRaw len text.tail
    (text.headD 0xff :: data, rest)

/-- The loop of `json_read_binary_data` for BASE64: `len` bytes have room. Every other round stores
one of them or more. Nothing reads `size_done` of a reader of BASE64. -/
def readLoop : (fuel : Nat) → (len : Nat) → ReadState → Result (Text × ReadState)
  | 0, _, s => .ok ([], s)
  | fuel + 1, len, s =>
    if len = 0 then .ok ([], s)
    else if 3 < s.buf.length then .error .fault
    else if len < s.buf.length then
      -- the rest of `state->buf` is moved to its beginning
      .ok (s.buf.take len, { s with buf := s.buf.drop len })
    else
      let out := s.buf
      let len := len - s.buf.length
      if 3 ≤ len then do
        let (data, text) ← readBase64 len s.text
        if data = [] then return (out, { s with buf := [], text })
        else do
          let (more, s) ← readLoop fuel (len - data.length) { s with buf := [], text }
          return (out ++ (data ++ more), s)
      else do
        let (buf, text) ← readBase64 3 s.text
        if buf = [] then return (out, { s with buf, text })
        else do
          let (more, s) ← readLoop fuel len { s with buf, text }
          return (out ++ more, s)

/-- `json_read_binary_data`: what is stored. -/
def jsonReadBinaryData (len : Nat) (s : ReadState) : Result (Text × ReadState) :=
  match s.encoding with
  | .binary =>
    let left := u64 (s.sizeStart + (2 ^ 64 - s.sizeDone))
    let (data, text) := readRaw (min len left) s.text
    .ok (data, { s with sizeDone := u64 (s.sizeDone + data.length), text })
  | .base64 => readLoop (2 * len + 1) len s

/-- `json_read_binary_end`: what follows. -/
def jsonReadBinaryEnd (s : ReadState) : Result Text :=
  if s.buf ≠ [] then .error (.raise .jsonSyntax)
  else
    match s.encoding with
    | .binary => if s.sizeStart = s.sizeDone then .ok s.text else .error .fault
    | .base64 => testChar 34 s.text

/-- Calls of `json_read_binary_data`, with the `i`th size for the `i`th call: what each of them
stores. -/
def readCalls (sizes : Nat → Nat) : (calls : Nat) → ReadState → Result (List Text × ReadState)
  | 0, s => .ok ([], s)
  | calls + 1, s => do
    let (before, s) ← readCalls sizes calls s
    let (data, s) ← jsonReadBinaryData (sizes calls) s
    return (before ++ [data], s)

/-- The loop of `json_read_alloc_binary`; every round but the last one takes something of the
text. -/
def allocLoop : (fuel : Nat) → TmpBuf → ReadState → Result (TmpBuf × ReadState)
  | 0, b, s => .ok (b, s)
  | fuel + 1, b, s => do
    let b := if b.size ≤ b.bytes.length then b.realloc else b
    let (data, s) ← jsonReadBinaryData (b.size - b.bytes.length) s
    if data = [] then return (b, s)
    else allocLoop fuel { b with bytes := b.bytes ++ data } s

/-- `json_read_alloc_binary`: the block, which can be `NULL`, its size and what follows. -/
def jsonReadAllocBinary (b : TmpBuf) (text : Text) :
    Result (Option (List UInt8) × Nat × TmpBuf × Text) :=
  match text.dropWhile isSpace with
  | 110 :: text => do return (none, 0, b, ← readNull text)
  | text => do
    let s ← jsonReadBinaryStart text
    let (b, s) ← allocLoop (text.length + 1) b.reset s
    if 0 < s.sizeStart ∧ b.bytes.length ≠ s.sizeStart then .error .fault
    else do
      let text ← jsonReadBinaryEnd s
      return (some b.bytes, b.bytes.length, b, text)

/-! ## What has been written -/

section

variable {a b data : List UInt8} {s : WriteState}

theorem writeBase64_append (ha : a.length % 3 = 0) :
    writeBase64 (a ++ b) = writeBase64 a ++ writeBase64 b := by
  induction a using writeBase64.induct with
  | case1 b0 b1 b2 a ih =>
    have hRest : a.length % 3 = 0 := by
      simp only [List.length_cons] at ha
      omega
    simp [writeBase64, ih hRest]
  | case2 b0 b1 => simp at ha
  | case3 b0 => simp at ha
  | case4 => rfl

/-- A call writes groups of three bytes and keeps what is left. -/
structure Wrote (s : WriteState) (data : List UInt8) (out : Text) (s' : WriteState) : Prop where
  encoding : s'.encoding = .base64
  buf      : s'.buf.length < 3
  text     : ∀ more, writeBase64 (s.buf ++ (data ++ more)) = out ++ writeBase64 (s'.buf ++ more)

theorem Wrote.trans {s' s'' : WriteState} {data' out out' : Text} (h : Wrote s data out s')
    (h' : Wrote s' data' out' s'') : Wrote s (data ++ data') (out ++ out') s'' := by
  refine ⟨h'.encoding, h'.buf, fun more => ?_⟩
  rw [List.append_assoc, h.text, h'.text, List.append_assoc]

theorem wrote_keep {buf : List UInt8} (hBuf : s.buf ++ data = buf) (hLt : buf.length < 3)
    (hEnc : s.encoding = .base64) : Wrote s data [] { s with buf } := by
  refine ⟨hEnc, hLt, fun more => ?_⟩
  rw [← List.append_assoc, hBuf]
  rfl

/-- The bytes behind an empty `state->buf`. -/
theorem wrote_groups (hEnc : s.encoding = .base64) (hBuf : s.buf = []) (data : List UInt8)
    (sizeDone : Nat) :
    Wrote s data (writeBase64 (data.take (data.length - data.length % 3)))
      { s with sizeDone, buf := data.drop (data.length - data.length % 3) } := by
  refine ⟨hEnc, ?_, fun more => ?_⟩
  · show (data.drop _).length < 3
    rw [List.length_drop]
    omega
  · rw [hBuf, List.nil_append]
    show _ = _ ++ writeBase64 (data.drop _ ++ more)
    rw [← writeBase64_append, ← List.append_assoc, List.take_append_drop]
    rw [List.length_take]
    omega

/-- `json_write_binary_data` in BASE64. -/
theorem writeData_base64 (hEnc : s.encoding = .base64) (hBuf : s.buf.length < 3)
    (data : List UInt8) : ∃ out s', jsonWriteBinaryData s data = .ok (out, s') ∧
    Wrote s data out s' := by
  obtain ⟨encoding, sizeStart, sizeDone, buf⟩ := s
  obtain rfl : encoding = .base64 := hEnc
  have hLt : buf.length < 3 := hBuf
  unfold jsonWriteBinaryData
  by_cases hNone : data = []
  · rw [if_pos hNone]
    exact ⟨_, _, rfl, rfl, hBuf, fun more => by rw [hNone]; rfl⟩
  rw [if_neg hNone]
  unfold fillBuf
  by_cases hEmpty : buf = []
  · subst hEmpty
    cases data with
    | nil => exact absurd rfl hNone
    | cons b data =>
      simp only [↓reduceIte, ne_eq, not_true_eq_false, List.nil_append]
      exact ⟨_, _, rfl, wrote_groups rfl rfl _ _⟩
  · simp only [hEmpty, ↓reduceIte]
    by_cases hFull : 3 ≤ (buf ++ data.take (3 - buf.length)).length
    · rw [if_pos hFull]
      have hThree : (buf ++ data.take (3 - buf.length)).length % 3 = 0 := by
        rw [List.length_append, List.length_take] at hFull ⊢
        omega
      have hFirst : Wrote ⟨.base64, sizeStart, sizeDone, buf⟩ (data.take (3 - buf.length))
          (writeBase64 (buf ++ data.take (3 - buf.length))) ⟨.base64, sizeStart, sizeDone, []⟩ := by
        refine ⟨rfl, Nat.zero_lt_succ _, fun more => ?_⟩
        rw [← List.append_assoc, writeBase64_append hThree]
        rfl
      have hSplit := List.take_append_drop (3 - buf.length) data
      cases hRest : data.drop (3 - buf.length) with
      | nil =>
        rw [hRest, List.append_nil] at hSplit
        rw [hSplit] at hFirst ⊢
        exact ⟨_, _, rfl, hFirst⟩
      | cons b rest =>
        have hMore := hFirst.trans (wrote_groups rfl rfl (b :: rest)
          (u64 (sizeDone + ((b :: rest).length - (b :: rest).length % 3))))
        rw [← hRest, hSplit, hRest] at hMore
        exact ⟨_, _, rfl, hMore⟩
    · rw [if_neg hFull]
      have hAll : data.length < 3 - buf.length := by
        rw [List.length_append, List.length_take] at hFull
        omega
      rw [List.take_of_length_le hAll.le, List.drop_eq_nil_of_le hAll.le]
      refine ⟨_, _, rfl, wrote_keep rfl ?_ rfl⟩
      show (buf ++ data).length < 3
      rw [List.length_append]
      omega

theorem writeChunks_base64 (hEnc : s.encoding = .base64) (hBuf : s.buf.length < 3)
    (chunks : List (List UInt8)) :
    ∃ out s', writeChunks s chunks = .ok (out, s') ∧ Wrote s chunks.flatten out s' := by
  induction chunks generalizing s with
  | nil => exact ⟨[], s, rfl, hEnc, hBuf, fun more => rfl⟩
  | cons data chunks ih =>
    obtain ⟨out, s₁, hRun, hWrote⟩ := writeData_base64 hEnc hBuf data
    obtain ⟨more, s₂, hRest, hWrote'⟩ := ih hWrote.encoding hWrote.buf
    refine ⟨out ++ more, s₂, ?_, hWrote.trans hWrote'⟩
    rw [writeChunks, hRun]
    show (writeChunks s₁ chunks >>= _) = _
    rw [hRest]
    rfl

theorem writeChunks_binary (hEnc : s.encoding = .binary) (chunks : List (List UInt8))
    (hSize : s.sizeDone + chunks.flatten.length < 2 ^ 64) :
    writeChunks s chunks =
      .ok (chunks.flatten, { s with sizeDone := s.sizeDone + chunks.flatten.length }) := by
  induction chunks generalizing s with
  | nil => rfl
  | cons data chunks ih =>
    rw [List.flatten_cons, List.length_append] at hSize
    have hRun : jsonWriteBinaryData s data =
        .ok (data, { s with sizeDone := s.sizeDone + data.length }) := by
      have hMod : u64 (s.sizeDone + data.length) = s.sizeDone + data.length :=
        Nat.mod_eq_of_lt (by omega)
      unfold jsonWriteBinaryData
      by_cases hNone : data = []
      · rw [if_pos hNone, hNone]
        rfl
      · rw [if_neg hNone, hEnc]
        simp only [hMod]
    have hRest := @ih { s with sizeDone := s.sizeDone + data.length } hEnc (by
      show s.sizeDone + data.length + _ < _
      omega)
    rw [writeChunks, hRun]
    show (writeChunks _ chunks >>= _) = _
    rw [hRest, List.flatten_cons, List.length_append, ← Nat.add_assoc]
    rfl

/-- What the data are in a stream. -/
def binaryText (supportsZeroCopy : Bool) (size : Nat) (data : List UInt8) : Text :=
  if supportsZeroCopy = true ∧ 0 < size then 40 :: (decimal size ++ 41 :: data)
  else 34 :: (writeBase64 data ++ [34])

/-- Chunks are written like their concatenation. -/
theorem writeBinary_eq {supportsZeroCopy : Bool} {size : Nat} {chunks : List (List UInt8)}
    (hLength : chunks.flatten.length < 2 ^ 64)
    (hSize : supportsZeroCopy = true → 0 < size → size = chunks.flatten.length) :
    writeBinary supportsZeroCopy size chunks =
      .ok (binaryText supportsZeroCopy size chunks.flatten) := by
  have hJoin : ∀ {start : Text × WriteState} {out last : Text} {s' : WriteState},
      jsonWriteBinaryStart supportsZeroCopy size = start →
      writeChunks start.2 chunks = .ok (out, s') → jsonWriteBinaryEnd s' = .ok last →
      writeBinary supportsZeroCopy size chunks = .ok (start.1 ++ (out ++ last)) := by
    intro start out last s' hStart hRun hEnd
    unfold writeBinary
    rw [hStart]
    simp only [hRun]
    show (jsonWriteBinaryEnd s' >>= _) = _
    rw [hEnd]
    rfl
  unfold binaryText
  by_cases hBinary : supportsZeroCopy = true ∧ 0 < size
  · have hSame := hSize hBinary.1 hBinary.2
    have hRun := @writeChunks_binary ⟨.binary, size, 0, []⟩ rfl chunks (by
      show 0 + _ < _
      omega)
    have hEnd : jsonWriteBinaryEnd ⟨.binary, size, 0 + chunks.flatten.length, []⟩ = .ok [] :=
      if_pos (hSame.trans (Nat.zero_add _).symm)
    rw [if_pos hBinary, hJoin (if_pos hBinary) hRun hEnd]
    simp
  · obtain ⟨out, s', hRun, hWrote⟩ :=
      @writeChunks_base64 ⟨.base64, size, 0, []⟩ rfl (Nat.zero_lt_succ _) chunks
    have hText : writeBase64 chunks.flatten = out ++ writeBase64 s'.buf := by
      have hText := hWrote.text []
      rwa [List.append_nil, List.append_nil] at hText
    have hEnd : jsonWriteBinaryEnd s' = .ok (writeBase64 s'.buf ++ [34]) := by
      rw [jsonWriteBinaryEnd, hWrote.encoding]
    rw [if_neg hBinary, hJoin (if_neg hBinary) hRun hEnd, hText, ← List.append_assoc out]
    rfl

end

/-! ## What is still to be read -/

/-- A reader has not given these data yet. -/
inductive Holds (s : ReadState) (data rest : Text) : Prop where
  | binary (hEnc : s.encoding = .binary) (hBuf : s.buf = []) (hText : s.text = data ++ rest)
      (hSize : s.sizeDone + data.length = s.sizeStart) (hLt : s.sizeStart < 2 ^ 64)
  | base64 (hEnc : s.encoding = .base64) (hZero : s.sizeStart = 0) (behind : Text)
      (hData : data = s.buf ++ behind) (hText : s.text = writeBase64 behind ++ 34 :: rest)
      (hBuf : s.buf.length ≤ 3)

section

variable {s : ReadState} {data rest : Text} {len : Nat}

theorem readRaw_eq (hLen : len ≤ data.length) :
    readRaw len (data ++ rest) = (data.take len, data.drop len ++ rest) := by
  induction len generalizing data with
  | zero => rfl
  | succ len ih =>
    cases data with
    | nil => simp at hLen
    | cons b data =>
      have hTail : len ≤ data.length := by simpa using hLen
      rw [readRaw, List.cons_append, List.tail_cons, ih hTail]
      rfl

theorem take_take_drop (data : List UInt8) {k n : Nat} (hk : k ≤ n) :
    data.take k ++ (data.drop k).take (n - (data.take k).length) = data.take n ∧
      (data.drop k).drop (n - (data.take k).length) = data.drop n := by
  rw [List.length_take]
  rcases Nat.lt_or_ge data.length k with hShort | hLong
  · rw [List.drop_eq_nil_of_le hShort.le, List.drop_eq_nil_of_le (by omega : data.length ≤ n),
      List.take_of_length_le hShort.le, List.take_of_length_le (by omega : data.length ≤ n)]
    simp
  · rw [Nat.min_eq_left hLong]
    obtain ⟨m, rfl⟩ := Nat.exists_eq_add_of_le hk
    rw [Nat.add_sub_cancel_left, List.take_add, List.drop_drop]
    exact ⟨rfl, rfl⟩

theorem endsBase64_quote (rest : Text) : EndsBase64 (34 :: rest) := rfl

/-- A reader of BASE64: what is in `state->buf` and what is behind it in the text. -/
theorem readLoop_eq (fuel : Nat) {buf behind : Text} {sizeStart sizeDone : Nat}
    (hBuf : buf.length ≤ 3) (hFuel : 2 * len + (if buf = [] then 1 else 0) ≤ fuel) :
    ∃ buf' behind', readLoop fuel len
        ⟨.base64, sizeStart, sizeDone, buf, writeBase64 behind ++ 34 :: rest⟩ =
      .ok ((buf ++ behind).take len,
        ⟨.base64, sizeStart, sizeDone, buf', writeBase64 behind' ++ 34 :: rest⟩) ∧
      (buf ++ behind).drop len = buf' ++ behind' ∧ buf'.length ≤ 3 := by
  induction fuel generalizing len buf behind with
  | zero =>
    obtain rfl : len = 0 := by omega
    exact ⟨buf, behind, rfl, rfl, hBuf⟩
  | succ fuel ih =>
    rw [readLoop]
    by_cases hDone : len = 0
    · rw [if_pos hDone, hDone]
      exact ⟨buf, behind, rfl, rfl, hBuf⟩
    rw [if_neg hDone, if_neg (by show ¬ 3 < buf.length; omega)]
    -- what an earlier read has left over comes first
    by_cases hPart : len < buf.length
    · rw [if_pos hPart]
      refine ⟨buf.drop len, behind, ?_, ?_, ?_⟩
      · rw [List.take_append_of_le_length hPart.le]
      · rw [List.drop_append_of_le_length hPart.le]
      · rw [List.length_drop]
        omega
    rw [if_neg hPart]
    have hSplit : (buf ++ behind).take len = buf ++ behind.take (len - buf.length) ∧
        (buf ++ behind).drop len = behind.drop (len - buf.length) := by
      rw [List.take_append, List.drop_append, List.take_of_length_le (by omega),
        List.drop_eq_nil_of_le (by omega)]
      exact ⟨rfl, rfl⟩
    have hLess : 2 * (len - buf.length) + (if buf = [] then 1 else 2) ≤ fuel + 1 := by
      by_cases hNone : buf = []
      · rw [if_pos hNone] at hFuel ⊢
        omega
      · have := List.length_pos_iff.2 hNone
        rw [if_neg hNone] at hFuel ⊢
        omega
    rw [hSplit.1, hSplit.2]
    -- as many groups of three as fit, or a single one into the small buffer
    generalize len - buf.length = left at hLess
    by_cases hMany : 3 ≤ left
    · rw [if_pos hMany,
        @readBase64_write behind (34 :: rest) left (endsBase64_quote rest) hMany]
      obtain ⟨hTake, hDrop⟩ := take_take_drop behind (Nat.div_mul_le_self left 3)
      by_cases hEnd : behind.take (left / 3 * 3) = []
      · obtain rfl : behind = [] := (List.take_eq_nil_iff.1 hEnd).resolve_left (by omega)
        refine ⟨[], [], ?_, by simp, Nat.zero_le _⟩
        rw [List.take_nil, List.drop_nil, List.take_nil, List.append_nil buf]
        rfl
      · have hPos := List.length_pos_iff.2 hEnd
        obtain ⟨buf', behind', hRun, hRest, hLe⟩ :=
          @ih (left - (behind.take (left / 3 * 3)).length) [] (behind.drop (left / 3 * 3))
            (Nat.zero_le _) (by rw [if_pos rfl]; split at hLess <;> omega)
        rw [List.nil_append] at hRun hRest
        refine ⟨buf', behind', (if_neg hEnd).trans ?_, hDrop.symm.trans hRest, hLe⟩
        rw [hRun, ← hTake]
        rfl
    · rw [if_neg hMany,
        @readBase64_write behind (34 :: rest) 3 (endsBase64_quote rest) (Nat.le_refl 3)]
      by_cases hEnd : behind.take (3 / 3 * 3) = []
      · obtain rfl : behind = [] := (List.take_eq_nil_iff.1 hEnd).resolve_left (by decide)
        refine ⟨[], [], ?_, by simp, Nat.zero_le _⟩
        rw [List.take_nil, List.drop_nil, List.take_nil, List.append_nil buf]
        rfl
      · obtain ⟨buf', behind', hRun, hRest, hLe⟩ :=
          @ih left (behind.take (3 / 3 * 3)) (behind.drop (3 / 3 * 3))
            (by rw [List.length_take]; omega) (by rw [if_neg hEnd]; split at hLess <;> omega)
        rw [List.take_append_drop] at hRun hRest
        refine ⟨buf', behind', (if_neg hEnd).trans ?_, hRest, hLe⟩
        rw [hRun]
        rfl

/-- A call gives the next bytes. -/
theorem readData_holds (h : Holds s data rest) (len : Nat) :
    ∃ s', jsonReadBinaryData len s = .ok (data.take len, s') ∧ s'.sizeStart = s.sizeStart ∧
      Holds s' (data.drop len) rest := by
  obtain ⟨encoding, sizeStart, sizeDone, buf, text⟩ := s
  rcases h with ⟨hEnc, hBuf, hText, hSize, hLt⟩ | ⟨hEnc, hZero, behind, hData, hText, hBuf⟩
  · have hLeft : u64 (sizeStart + (2 ^ 64 - sizeDone)) = data.length := by
      have hSum : sizeStart + (2 ^ 64 - sizeDone) = data.length + 2 ^ 64 := by
        dsimp only at hSize hLt
        omega
      rw [hSum, u64, Nat.add_mod_right, Nat.mod_eq_of_lt]
      omega
    have hDone : u64 (sizeDone + (data.take len).length) = sizeDone + (data.take len).length := by
      have hLe := List.length_take_le len data
      have hLe' : (data.take len).length ≤ data.length := by
        rw [List.length_take]
        exact Nat.min_le_right _ _
      dsimp only at hSize hLt
      exact Nat.mod_eq_of_lt (by omega)
    obtain rfl : encoding = .binary := hEnc
    obtain rfl : text = data ++ rest := hText
    have hTake : data.take (min len data.length) = data.take len := by
      rw [← List.take_take, List.take_length]
    have hDrop : data.drop (min len data.length) = data.drop len := by
      rcases Nat.le_total len data.length with hLe | hLe
      · rw [Nat.min_eq_left hLe]
      · rw [Nat.min_eq_right hLe, List.drop_length, List.drop_eq_nil_of_le hLe]
    have hRaw := @readRaw_eq data rest _ (Nat.min_le_right len data.length)
    rw [hTake, hDrop] at hRaw
    refine ⟨⟨.binary, sizeStart, sizeDone + (data.take len).length, buf, data.drop len ++ rest⟩,
      ?_, rfl, .binary rfl hBuf rfl ?_ hLt⟩
    · unfold jsonReadBinaryData
      simp only [hLeft, hRaw, hDone]
    · show sizeDone + (data.take len).length + (data.drop len).length = sizeStart
      rw [Nat.add_assoc, ← List.length_append, List.take_append_drop]
      exact hSize
  · obtain rfl : encoding = .base64 := hEnc
    obtain rfl : text = writeBase64 behind ++ 34 :: rest := hText
    obtain ⟨buf', behind', hRun, hRest, hLe⟩ :=
      @readLoop_eq rest len (2 * len + 1) buf behind sizeStart sizeDone hBuf
        (by split <;> omega)
    rw [← hData] at hRun hRest
    exact ⟨⟨.base64, sizeStart, sizeDone, buf', writeBase64 behind' ++ 34 :: rest⟩, hRun, rfl,
      .base64 rfl hZero behind' hRest rfl hLe⟩

/-- `json_read_binary_start` of what has been written. -/
theorem readStart_holds {supportsZeroCopy : Bool} {size : Nat}
    (hLength : data.length < 2 ^ 64)
    (hSize : supportsZeroCopy = true → 0 < size → size = data.length) :
    ∃ s, jsonReadBinaryStart (binaryText supportsZeroCopy size data ++ rest) = .ok s ∧
      (s.sizeStart = 0 ∨ s.sizeStart = data.length) ∧ Holds s data rest := by
  unfold binaryText
  by_cases hBinary : supportsZeroCopy = true ∧ 0 < size
  · obtain rfl := hSize hBinary.1 hBinary.2
    rw [if_pos hBinary]
    have hRead : jsonReadUlong (decimal data.length ++ 41 :: (data ++ rest)) =
        .ok (data.length, 41 :: (data ++ rest)) :=
      readUint64_write hLength (noDigit_cons rfl _)
    refine ⟨⟨.binary, data.length, 0, [], data ++ rest⟩, ?_, .inr rfl,
      .binary rfl rfl rfl (Nat.zero_add _) hLength⟩
    have hText : 40 :: (decimal data.length ++ 41 :: data) ++ rest =
        40 :: (decimal data.length ++ 41 :: (data ++ rest)) := by
      simp
    rw [hText]
    show (jsonReadUlong _ >>= _) = _
    rw [hRead]
    rfl
  · rw [if_neg hBinary]
    refine ⟨⟨.base64, 0, 0, [], writeBase64 data ++ 34 :: rest⟩, ?_, .inl rfl,
      .base64 rfl rfl data rfl rfl (Nat.zero_le _)⟩
    have hText : 34 :: (writeBase64 data ++ [34]) ++ rest =
        34 :: (writeBase64 data ++ 34 :: rest) := by
      simp
    rw [hText]
    rfl

/-- `json_read_binary_end` where all has been given. -/
theorem readEnd_holds (h : Holds s [] rest) : jsonReadBinaryEnd s = .ok rest := by
  rcases h with ⟨hEnc, hBuf, hText, hSize, hLt⟩ | ⟨hEnc, hZero, behind, hData, hText, hBuf⟩
  · rw [jsonReadBinaryEnd, if_neg (not_not_intro hBuf), hEnc, hText]
    exact if_pos hSize.symm
  · obtain ⟨hNone, hBehind⟩ := List.append_eq_nil_iff.1 hData.symm
    rw [jsonReadBinaryEnd, if_neg (not_not_intro hNone), hEnc, hText, hBehind]
    rfl

/-- The bytes that have been asked for by the first calls. -/
def asked (sizes : Nat → Nat) : (calls : Nat) → Nat
  | 0 => 0
  | calls + 1 => asked sizes calls + sizes calls

/-- The first calls give the first bytes. -/
theorem readCalls_holds (sizes : Nat → Nat) (calls : Nat) (h : Holds s data rest) :
    ∃ datas s', readCalls sizes calls s = .ok (datas, s') ∧
      datas.flatten = data.take (asked sizes calls) ∧
        Holds s' (data.drop (asked sizes calls)) rest ∧
      ∀ d ∈ datas, ∃ call < calls, d = (data.drop (asked sizes call)).take (sizes call) := by
  induction calls with
  | zero => exact ⟨[], s, rfl, rfl, h, fun d hd => absurd hd List.not_mem_nil⟩
  | succ calls ih =>
    obtain ⟨datas, s₁, hRun, hFlat, hHolds, hMem⟩ := ih
    obtain ⟨s₂, hCall, _, hHolds'⟩ := readData_holds hHolds (sizes calls)
    refine ⟨datas ++ [(data.drop (asked sizes calls)).take (sizes calls)], s₂, ?_, ?_, ?_, ?_⟩
    · rw [readCalls, hRun]
      show (jsonReadBinaryData (sizes calls) s₁ >>= _) = _
      rw [hCall]
      rfl
    · rw [List.flatten_append, hFlat, asked, List.take_add, List.flatten_singleton]
    · rwa [asked, ← List.drop_drop]
    · intro d hd
      rcases List.mem_append.1 hd with hd | hd
      · obtain ⟨call, hLt, hEq⟩ := hMem d hd
        exact ⟨call, hLt.trans (Nat.lt_succ_self _), hEq⟩
      · exact ⟨calls, Nat.lt_succ_self _, List.mem_singleton.1 hd⟩

theorem le_asked {sizes : Nat → Nat} (hPos : ∀ i, 0 < sizes i) (calls : Nat) :
    calls ≤ asked sizes calls := by
  induction calls with
  | zero => exact Nat.zero_le _
  | succ calls ih =>
    have hOne := hPos calls
    rw [asked]
    omega

/-- Every call gives something until all has been given, and nothing from there on. -/
theorem readCalls_all (sizes : Nat → Nat) (hPos : ∀ i, 0 < sizes i) (h : Holds s data rest) :
    ∃ calls datas s₁ s₂, readCalls sizes calls s = .ok (datas, s₁) ∧ (∀ d ∈ datas, d ≠ []) ∧
      datas.flatten = data ∧ jsonReadBinaryData (sizes calls) s₁ = .ok ([], s₂) ∧
      jsonReadBinaryEnd s₂ = .ok rest := by
  have hEnough : ∃ calls, data.length ≤ asked sizes calls := ⟨data.length, le_asked hPos _⟩
  obtain ⟨datas, s₁, hRun, hFlat, hHolds, hMem⟩ := readCalls_holds sizes (Nat.find hEnough) h
  have hAll := Nat.find_spec hEnough
  rw [List.drop_eq_nil_of_le hAll] at hHolds
  rw [List.take_of_length_le hAll] at hFlat
  obtain ⟨s₂, hLast, _, hEnd⟩ := readData_holds hHolds (sizes (Nat.find hEnough))
  rw [List.take_nil] at hLast
  rw [List.drop_nil] at hEnd
  refine ⟨_, datas, s₁, s₂, hRun, ?_, hFlat, hLast, readEnd_holds hEnd⟩
  intro d hd hNone
  obtain ⟨call, hLt, rfl⟩ := hMem d hd
  have hLess := Nat.find_min hEnough hLt
  have hSize := hPos call
  have hLength := congrArg List.length hNone
  rw [List.length_take, List.length_drop, List.length_nil] at hLength
  omega

theorem length_le_writeBase64 (data : List UInt8) : data.length ≤ (writeBase64 data).length := by
  induction data using writeBase64.induct with
  | case1 b0 b1 b2 data ih =>
    simp only [writeBase64, List.length_cons]
    omega
  | case2 b0 b1 => simp [writeBase64]
  | case3 b0 => simp [writeBase64]
  | case4 => exact Nat.le_refl _

theorem length_le_binaryText (supportsZeroCopy : Bool) (size : Nat) (data : List UInt8) :
    data.length ≤ (binaryText supportsZeroCopy size data).length := by
  have hLength := length_le_writeBase64 data
  unfold binaryText
  split
  · simp only [List.length_cons, List.length_append]
    omega
  · simp only [List.length_cons, List.length_append, List.length_nil]
    omega

/-- Rounds of `json_read_alloc_binary` until nothing is left. -/
theorem allocLoop_eq (fuel : Nat) {b : TmpBuf} (hFits : b.Fits) (h : Holds s data rest)
    (hFuel : data.length < fuel) :
    ∃ b' s', allocLoop fuel b s = .ok (b', s') ∧ b'.bytes = b.bytes ++ data ∧
      s'.sizeStart = s.sizeStart ∧ Holds s' [] rest := by
  induction fuel generalizing b s data with
  | zero => omega
  | succ fuel ih =>
    obtain ⟨n, hSame, hLt⟩ := hFits.room
    obtain ⟨s₁, hRun, hStart, hHolds⟩ := readData_holds h (n - b.bytes.length)
    have hStep : allocLoop (fuel + 1) b s =
        if data.take (n - b.bytes.length) = [] then .ok (⟨n, b.bytes⟩, s₁)
        else allocLoop fuel ⟨n, b.bytes ++ data.take (n - b.bytes.length)⟩ s₁ := by
      rw [allocLoop, hSame]
      show (jsonReadBinaryData (n - b.bytes.length) s >>= _) = _
      rw [hRun]
      rfl
    rw [hStep]
    by_cases hNone : data.take (n - b.bytes.length) = []
    · obtain rfl : data = [] := (List.take_eq_nil_iff.1 hNone).resolve_left (by omega)
      rw [if_pos hNone]
      rw [List.drop_nil] at hHolds
      exact ⟨_, s₁, rfl, (List.append_nil _).symm, hStart, hHolds⟩
    · have hSome : 0 < (data.take (n - b.bytes.length)).length := List.length_pos_iff.2 hNone
      rw [List.length_take] at hSome
      obtain ⟨b', s', hRest, hBytes, hStart', hEnd⟩ :=
        @ih s₁ (data.drop (n - b.bytes.length)) ⟨n, b.bytes ++ data.take (n - b.bytes.length)⟩
          (by
            show (b.bytes ++ data.take _).length ≤ n
            rw [List.length_append, List.length_take]
            omega)
          hHolds (by rw [List.length_drop]; omega)
      rw [if_neg hNone]
      refine ⟨b', s', hRest, ?_, hStart'.trans hStart, hEnd⟩
      rw [hBytes, List.append_assoc, List.take_append_drop]

theorem jsonReadAllocBinary_first (b : TmpBuf) {c : UInt8} {text : Text} (hc : c = 40 ∨ c = 34) :
    jsonReadAllocBinary b (c :: text) = (do
      let s ← jsonReadBinaryStart (c :: text)
      let (b, s) ← allocLoop ((c :: text).length + 1) b.reset s
      if 0 < s.sizeStart ∧ b.bytes.length ≠ s.sizeStart then .error .fault
      else do
        let text ← jsonReadBinaryEnd s
        return (some b.bytes, b.bytes.length, b, text)) := by
  have hSpace : (c :: text).dropWhile isSpace = c :: text := by
    rcases hc with rfl | rfl <;> rfl
  unfold jsonReadAllocBinary
  rw [hSpace]
  rcases hc with rfl | rfl <;> rfl

/-- `json_read_alloc_binary` of what has been written. -/
theorem jsonReadAllocBinary_eq (b : TmpBuf) {supportsZeroCopy : Bool} {size : Nat}
    (hLength : data.length < 2 ^ 64)
    (hSize : supportsZeroCopy = true → 0 < size → size = data.length) :
    ∃ b', jsonReadAllocBinary b (binaryText supportsZeroCopy size data ++ rest) =
      .ok (some data, data.length, b', rest) := by
  obtain ⟨s, hStart, hSizes, hHolds⟩ := @readStart_holds data rest _ _ hLength hSize
  have hMore := length_le_binaryText supportsZeroCopy size data
  have hFirst : ∃ c text, (c = 40 ∨ c = 34) ∧
      binaryText supportsZeroCopy size data ++ rest = c :: text := by
    unfold binaryText
    split
    · exact ⟨40, _, .inl rfl, rfl⟩
    · exact ⟨34, _, .inr rfl, rfl⟩
  have hLong : data.length < (binaryText supportsZeroCopy size data ++ rest).length + 1 := by
    rw [List.length_append]
    omega
  obtain ⟨c, text, hc, hText⟩ := hFirst
  rw [hText] at hStart hLong ⊢
  obtain ⟨b', s', hLoop, hBytes, hStart', hEnd⟩ := allocLoop_eq _ (fits_reset b) hHolds hLong
  have hAll : b'.bytes = data := hBytes
  have hSame : ¬(0 < s'.sizeStart ∧ b'.bytes.length ≠ s'.sizeStart) := by
    rw [hStart', hAll]
    omega
  refine ⟨b', ?_⟩
  rw [jsonReadAllocBinary_first b hc, hStart]
  show (allocLoop _ _ _ >>= _) = _
  rw [hLoop]
  refine (if_neg hSame).trans ?_
  rw [readEnd_holds hEnd, hAll]
  rfl

/-- Data are read as they were written, whatever the sizes of the chunks and of the buffers are. -/
theorem binary_read_back (supportsZeroCopy : Bool) (size : Nat) (chunks : List (List UInt8))
    (rest : Text) (hLength : chunks.flatten.length < 2 ^ 64)
    (hSize : supportsZeroCopy = true → 0 < size → size = chunks.flatten.length) :
    ∃ text, writeBinary supportsZeroCopy size chunks = .ok text ∧
      (∃ s, jsonReadBinaryStart (text ++ rest) = .ok s ∧
        ∀ sizes : Nat → Nat, (∀ i, 0 < sizes i) →
          ∃ calls datas s₁ s₂, readCalls sizes calls s = .ok (datas, s₁) ∧ (∀ d ∈ datas, d ≠ []) ∧
            datas.flatten = chunks.flatten ∧ jsonReadBinaryData (sizes calls) s₁ = .ok ([], s₂) ∧
            jsonReadBinaryEnd s₂ = .ok rest) ∧
      ∀ b, ∃ b', jsonReadAllocBinary b (text ++ rest) =
        .ok (some chunks.flatten, chunks.flatten.length, b', rest) := by
  obtain ⟨s, hStart, -, hHolds⟩ := @readStart_holds _ rest _ _ hLength hSize
  refine ⟨_, writeBinary_eq hLength hSize, ⟨s, hStart, ?_⟩, ?_⟩
  · intro sizes hPos
    exact readCalls_all sizes hPos hHolds
  · intro b
    exact jsonReadAllocBinary_eq b hLength hSize

/-- Five bytes in chunks of 2, 0 and 3, in both encodings. -/
theorem binary_read_back_five :
    let chunks : List (List UInt8) := [[1, 2], [], [3, 4, 5]]
    (∃ text, writeBinary true 5 chunks = .ok text ∧
      ∀ b, ∃ b', jsonReadAllocBinary b (text ++ [93]) = .ok (some [1, 2, 3, 4, 5], 5, b', [93])) ∧
    ∃ text, writeBinary false 0 chunks = .ok text ∧
      ∀ b, ∃ b', jsonReadAllocBinary b (text ++ [93]) =
        .ok (some [1, 2, 3, 4, 5], 5, b', [93]) := by
  obtain ⟨raw, hRaw, -, hRead⟩ := binary_read_back true 5 [[1, 2], [], [3, 4, 5]] [93] (by decide)
    (fun _ _ => rfl)
  obtain ⟨text, hText, -, hRead'⟩ := binary_read_back false 0 [[1, 2], [], [3, 4, 5]] [93]
    (by decide) (by decide)
  exact ⟨⟨raw, hRaw, hRead⟩, ⟨text, hText, hRead'⟩⟩

end

end TcfAgent.JsonBuffers
