import TcfAgent.Framework.Streams
import TcfAgent.Lib.Run
import Mathlib.Data.List.TakeWhile

/-!
# The output side of a TCP channel

`framework/channel_tcp.c` writes a message into a fixed buffer `obuf->buf` of
`BUF_SIZE` bytes, between `out.cur` and `out.end`, and hands the buffer to the socket
whenever it is full. Bytes get there by four ways: the `write_stream` macro and
`write_string` of `framework/streams.c`, which store a byte that needs no escape
themselves, `tcp_write_stream`, and `tcp_write_block_stream`. When the peer supports
zero copy, `tcp_write_stream` opens a binary block, whose length is patched into its
header when the block is closed.

A step is a call; it fails where the code would write past `out.end` or where the
assertion of `tcp_flush_with_flags` that no block is open fails.

Main results:

* `writeOps_decode` — no sequence of calls fails, and once the block left open is
  closed, the bytes sent and the bytes buffered are whole frames that read back as the
  values written;
* `writeOps_longBlock` — in a longer buffer the three bytes of the header do not hold
  every length, and the receiver reads past the block.
-/

namespace TcfAgent.ChannelTcp

open TcfAgent.Lib TcfAgent.Streams

/-- The output state of a channel. `out` is what the buffer holds before `out.cur`,
`outBinBlock` the offset of the first raw byte of the open block, `sent` what has been
handed to the socket. -/
structure ChannelTCP where
  supportsZeroCopy : Bool
  out              : List UInt8 := []
  outBinBlock      : Option Nat := none
  sent             : List UInt8 := []
deriving DecidableEq, Repr

section Code

-- `BUF_SIZE`
variable (bufSize : Nat)

/-- `*out.cur++ = b`. -/
def put (c : ChannelTCP) (b : UInt8) : Option ChannelTCP :=
  if c.out.length < bufSize then some { c with out := c.out ++ [b] } else none

def tcpFlushWithFlags (c : ChannelTCP) : Option ChannelTCP :=
  if c.outBinBlock = none then some { c with sent := c.sent ++ c.out, out := [] } else none

/-- The bytes of a block header that hold the length. -/
def sizeBytes : Nat := if 0x4000 < bufSize then 3 else 2

def tcpBinBlockStart (c : ChannelTCP) : Option ChannelTCP := do
  let c ← put bufSize c ESC
  let c ← put bufSize c 3
  let c ← if 0x4000 < bufSize then put bufSize c 0 else some c
  let c ← put bufSize c 0
  let c ← put bufSize c 0
  some { c with outBinBlock := some c.out.length }

/-- `tcp_bin_block_end` on the block at `k`. -/
def tcpBinBlockEnd (c : ChannelTCP) (k : Nat) : ChannelTCP :=
  let len := c.out.length - k
  if len = 0 then
    { c with
      out := c.out.take (c.out.length - (if 0x4000 < bufSize then 5 else 4))
      outBinBlock := none }
  else if 0x4000 < bufSize then
    { c with
      out := ((c.out.set (k - 3) (UInt8.ofNat (len % 128) ||| 0x80)).set (k - 2)
        (UInt8.ofNat (len / 128 % 128) ||| 0x80)).set (k - 1) (UInt8.ofNat (len / 16384))
      outBinBlock := none }
  else
    { c with
      out := (c.out.set (k - 2) (UInt8.ofNat (len % 128) ||| 0x80)).set (k - 1)
        (UInt8.ofNat (len / 128))
      outBinBlock := none }

/-- `if (c->out_bin_block != NULL) tcp_bin_block_end(c)`. -/
def closeBlock (c : ChannelTCP) : ChannelTCP :=
  match c.outBinBlock with
  | none => c
  | some k => tcpBinBlockEnd bufSize c k

/-- `if (out.cur == out.end) tcp_flush_with_flags(c, MSG_MORE)`. -/
def flushFull (c : ChannelTCP) : Option ChannelTCP :=
  if c.out.length = bufSize then tcpFlushWithFlags c else some c

/-- The escape code that `tcp_write_stream` writes. -/
def putEsc (c : ChannelTCP) (esc : UInt8) : Option ChannelTCP := do
  let c ← put bufSize c ESC
  let c ← flushFull bufSize c
  put bufSize c esc

def tcpWriteStream (c : ChannelTCP) (v : Value) : Option ChannelTCP :=
  if c.supportsZeroCopy = false ∨ bufSize ≤ c.out.length + 32 ∨ v.toInt < 0 then do
    let c ← flushFull bufSize (closeBlock bufSize c)
    match v with
    | .byte b => if b = ESC then putEsc bufSize c 0 else put bufSize c b
    | .eom => putEsc bufSize c 1
    | .eos => putEsc bufSize c 2
  else do
    let c ← match c.outBinBlock with
      | none => tcpBinBlockStart bufSize c
      | some _ => some c
    match v with
    | .byte b => put bufSize c b
    | _ => none

/-- The loop of `tcp_write_block_stream`. Each round takes a byte at least, so `fuel`
is the number of bytes. -/
def writeBlockLoop : Nat → ChannelTCP → List UInt8 → Option ChannelTCP
  | _, c, [] => some c
  | 0, _, _ :: _ => none
  | fuel + 1, c, b :: src =>
    let n := min (bufSize - c.out.length) (src.length + 1)
    if n = 0 then do
      let c ← tcpWriteStream bufSize c (.byte b)
      writeBlockLoop fuel c src
    else if c.outBinBlock ≠ none then
      writeBlockLoop fuel { c with out := c.out ++ (b :: src).take n } ((b :: src).drop n)
    else if b ≠ ESC then
      let copied := ((b :: src).take n).takeWhile (· ≠ ESC)
      writeBlockLoop fuel { c with out := c.out ++ copied } ((b :: src).drop copied.length)
    else do
      let c ← tcpWriteStream bufSize c (.byte b)
      writeBlockLoop fuel c src

def tcpWriteBlockStream (c : ChannelTCP) (bytes : List UInt8) : Option ChannelTCP :=
  writeBlockLoop bufSize bytes.length c bytes

/-- The macro of `streams.h`. -/
def writeStream (c : ChannelTCP) (v : Value) : Option ChannelTCP :=
  match v with
  | .byte b =>
    if 3 < b ∧ c.out.length < bufSize then some { c with out := c.out ++ [b] }
    else tcpWriteStream bufSize c v
  | _ => tcpWriteStream bufSize c v

/-- `write_string` on the characters before the terminating zero. -/
def writeString (c : ChannelTCP) : List UInt8 → Option ChannelTCP
  | [] => some c
  | ch :: str =>
    if ch ≠ ESC ∧ c.out.length < bufSize then writeString { c with out := c.out ++ [ch] } str
    else do
      let c ← tcpWriteStream bufSize c (.byte ch)
      writeString c str

/-- `write_stringz`: the terminating zero is written like the characters before it. -/
def writeStringz (c : ChannelTCP) (str : List UInt8) : Option ChannelTCP :=
  writeString bufSize c (str ++ [0])

/-- A call on the stream. The flag of `eom` says whether the `tcp_flush_event` that
the end of a message posts flushes the buffer before the next call. -/
inductive Op where
  | byte (b : UInt8)
  | eom (flushed : Bool)
  | eos
  | block (bytes : List UInt8)
  | string (str : List UInt8)
  | stringz (str : List UInt8)
deriving DecidableEq, Repr

def step (c : ChannelTCP) : Op → Option ChannelTCP
  | .byte b => writeStream bufSize c (.byte b)
  | .eom flushed => do
    let c ← writeStream bufSize c .eom
    if flushed then tcpFlushWithFlags c else some c
  | .eos => writeStream bufSize c .eos
  | .block bytes => tcpWriteBlockStream bufSize c bytes
  | .string str => writeString bufSize c str
  | .stringz str => writeStringz bufSize c str

end Code

/-- What a call writes. -/
def Op.values : Op → List Value
  | .byte b => [.byte b]
  | .eom _ => [.eom]
  | .eos => [.eos]
  | .block bytes => bytes.map .byte
  | .string str => str.map .byte
  | .stringz str => str.map .byte ++ [.byte 0]

/-! ## What the buffer holds -/

variable {bufSize : Nat} {c : ChannelTCP} {w : List Value}

/-- No block is open, and what has left and what is buffered are whole frames. -/
structure Closed (bufSize : Nat) (c : ChannelTCP) (w : List Value) : Prop where
  noBlock : c.outBinBlock = none
  room    : c.out.length ≤ bufSize
  framed  : Framed (c.sent ++ c.out) w

/-- The header of a block before its length is known. -/
def header (bufSize : Nat) : List UInt8 := ESC :: 3 :: List.replicate (sizeBytes bufSize) 0

/-- A block is open: `pre` ends with a whole frame, and `data` are the raw bytes so far. -/
structure Open (bufSize : Nat) (c : ChannelTCP) (w : List Value) (pre data : List UInt8) :
    Prop where
  zeroCopy : c.supportsZeroCopy = true
  block    : c.outBinBlock = some (pre ++ header bufSize).length
  out_eq   : c.out = pre ++ header bufSize ++ data
  room     : c.out.length ≤ bufSize
  nonempty : data ≠ []
  framed   : ∃ vs, Framed (c.sent ++ pre) vs ∧ w = vs ++ data.map .byte

/-- The invariant of the output state: `w` is what has been written. -/
def Inv (bufSize : Nat) (c : ChannelTCP) (w : List Value) : Prop :=
  Closed bufSize c w ∨ ∃ pre data, Open bufSize c w pre data

theorem Inv.room (h : Inv bufSize c w) : c.out.length ≤ bufSize := by
  rcases h with h | ⟨pre, data, h⟩
  · exact h.room
  · exact h.room

theorem sizeBytes_cases (bufSize : Nat) :
    (0x4000 < bufSize ∧ sizeBytes bufSize = 3) ∨ (bufSize ≤ 0x4000 ∧ sizeBytes bufSize = 2) := by
  unfold sizeBytes
  split <;> omega

@[simp] theorem header_length (bufSize : Nat) :
  (header bufSize).length = sizeBytes bufSize + 2 := by
  simp [header]

/-! ## Closing a block -/

/-- A length as two digits. -/
def size2 (len : Nat) (h : len < 2 ^ 14) : SizePrefix where
  digits := [UInt8.ofNat (len % 128), UInt8.ofNat (len / 128)]
  nonempty := by simp
  lt := by
    intro d hd
    rcases List.mem_pair.mp hd with rfl | rfl
    all_goals rw [UInt8.toNat_ofNat']; omega

/-- A length as three digits. -/
def size3 (len : Nat) (h : len < 2 ^ 21) : SizePrefix where
  digits := [UInt8.ofNat (len % 128), UInt8.ofNat (len / 128 % 128), UInt8.ofNat (len / 16384)]
  nonempty := by simp
  lt := by
    intro d hd
    simp only [List.mem_cons, List.not_mem_nil, or_false] at hd
    rcases hd with rfl | rfl | rfl
    all_goals rw [UInt8.toNat_ofNat']; omega

theorem size2_value {len : Nat} (h : len < 2 ^ 14) : digitsValue (size2 len h).digits = len := by
  simp only [size2, digitsValue, UInt8.toNat_ofNat']
  omega

theorem size3_value {len : Nat} (h : len < 2 ^ 21) : digitsValue (size3 len h).digits = len := by
  simp only [size3, digitsValue, UInt8.toNat_ofNat']
  omega

/-- The receiver can read sizes of up to four digits. -/
theorem shiftDefined_of_lt {d : UInt8} {i : Nat} (hi : i < 4) : ShiftDefined d (i + 1) := by
  have hd : d.toNat % 128 < 2 ^ 7 := Nat.mod_lt _ (by omega)
  refine ⟨by omega, ?_⟩
  rw [toNat_and_7f, Nat.shiftLeft_eq, Nat.add_sub_cancel]
  calc d.toNat % 128 * 2 ^ (i * 7) < 2 ^ 7 * 2 ^ (i * 7) :=
        Nat.mul_lt_mul_of_pos_right hd (Nat.two_pow_pos _)
    _ = 2 ^ (7 + i * 7) := (Nat.pow_add ..).symm
    _ ≤ 2 ^ 31 := Nat.pow_le_pow_right (by omega) (by omega)

theorem set_append_add (pre rest : List UInt8) (i : Nat) (x : UInt8) :
    (pre ++ rest).set (pre.length + i) x = pre ++ rest.set i x := by
  rw [List.set_append_right _ _ (Nat.le_add_right ..), Nat.add_sub_cancel_left]

/-- **Closing a block** turns the open block into a frame with its length. -/
theorem closed_of_open {pre data : List UInt8} (hSize : bufSize ≤ 2 ^ 21 + 4)
    (h : Open bufSize c w pre data) : Closed bufSize (closeBlock bufSize c) w := by
  obtain ⟨vs, hFramed, rfl⟩ := h.framed
  have hLen : c.out.length - (pre ++ header bufSize).length = data.length := by
    rw [h.out_eq, List.length_append]
    omega
  have hPos : 0 < data.length := List.length_pos_iff.mpr h.nonempty
  have hRoom := h.room
  rw [h.out_eq, List.length_append, List.length_append, header_length] at hRoom
  have hOut : c.out = pre ++ (header bufSize ++ data) := by rw [h.out_eq, List.append_assoc]
  rw [closeBlock, h.block]
  simp only [tcpBinBlockEnd, hLen, if_neg (by omega : ¬ data.length = 0)]
  rcases sizeBytes_cases bufSize with ⟨hBig, hBytes⟩ | ⟨hSmall, hBytes⟩
  · -- the length takes three bytes
    have hFit : data.length < 2 ^ 21 := by omega
    have h3 : (pre ++ header bufSize).length - 3 = pre.length + 2 := by simp [hBytes]
    have h2 : (pre ++ header bufSize).length - 2 = pre.length + 3 := by simp [hBytes]
    have h1 : (pre ++ header bufSize).length - 1 = pre.length + 4 := by simp [hBytes]
    rw [if_pos hBig]
    refine ⟨rfl, by simpa using h.room, ?_⟩
    have hFrame := hFramed.concat (f := .block (size3 data.length hFit) data (size3_value hFit))
      ⟨shiftDefined_of_lt (by omega), shiftDefined_of_lt (by omega), shiftDefined_of_lt (by omega),
        trivial⟩
    rw [List.append_assoc] at hFrame
    rw [h3, h2, h1, hOut, set_append_add, set_append_add, set_append_add, header, hBytes]
    exact hFrame
  · -- and here two
    have hFit : data.length < 2 ^ 14 := by omega
    have h2 : (pre ++ header bufSize).length - 2 = pre.length + 2 := by simp [hBytes]
    have h1 : (pre ++ header bufSize).length - 1 = pre.length + 3 := by simp [hBytes]
    rw [if_neg (by omega)]
    refine ⟨rfl, by simpa using h.room, ?_⟩
    have hFrame := hFramed.concat (f := .block (size2 data.length hFit) data (size2_value hFit))
      ⟨shiftDefined_of_lt (by omega), shiftDefined_of_lt (by omega), trivial⟩
    rw [List.append_assoc] at hFrame
    rw [h2, h1, hOut, set_append_add, set_append_add, header, hBytes]
    exact hFrame

theorem closeBlock_zeroCopy (bufSize : Nat) (c : ChannelTCP) :
    (closeBlock bufSize c).supportsZeroCopy = c.supportsZeroCopy := by
  unfold closeBlock tcpBinBlockEnd
  split
  · rfl
  · dsimp only
    split_ifs <;> rfl

theorem closeBlock_sent (bufSize : Nat) (c : ChannelTCP) :
    (closeBlock bufSize c).sent = c.sent := by
  unfold closeBlock tcpBinBlockEnd
  split
  · rfl
  · dsimp only
    split_ifs <;> rfl

/-! ## One byte -/

theorem put_eq (c : ChannelTCP) (b : UInt8) (h : c.out.length < bufSize) :
    put bufSize c b = some { c with out := c.out ++ [b] } := if_pos h

variable {data : List UInt8}

/-- Storing bytes that need no escape, between blocks. -/
theorem Closed.append_plain (h : Closed bufSize c w) (hData : ESC ∉ data)
    (hRoom : c.out.length + data.length ≤ bufSize) :
    Closed bufSize { c with out := c.out ++ data } (w ++ data.map .byte) where
  noBlock := h.noBlock
  room := by simpa using hRoom
  framed := by
    show Framed (c.sent ++ (c.out ++ data)) _
    rw [← List.append_assoc]
    exact h.framed.append_plain hData

/-- Storing any bytes in an open block. -/
theorem Open.append {pre data : List UInt8} (h : Open bufSize c w pre data) (more : List UInt8)
    (hRoom : c.out.length + more.length ≤ bufSize) :
    Open bufSize { c with out := c.out ++ more } (w ++ more.map .byte) pre (data ++ more) where
  zeroCopy := h.zeroCopy
  block := h.block
  out_eq := by rw [h.out_eq, List.append_assoc]
  room := by simpa using hRoom
  nonempty := by simp [h.nonempty]
  framed := by
    obtain ⟨vs, hFramed, rfl⟩ := h.framed
    exact ⟨vs, hFramed, by simp⟩

/-- Making room when no block is open. -/
theorem Closed.flushFull (h : Closed bufSize c w) (hPos : 0 < bufSize) :
    ∃ c', flushFull bufSize c = some c' ∧ Closed bufSize c' w ∧ c'.out.length < bufSize ∧
      c'.supportsZeroCopy = c.supportsZeroCopy := by
  by_cases hFull : c.out.length = bufSize
  · refine ⟨{ c with sent := c.sent ++ c.out, out := [] }, ?_, ?_, hPos, rfl⟩
    · rw [ChannelTcp.flushFull, if_pos hFull, tcpFlushWithFlags, if_pos h.noBlock]
    · exact ⟨h.noBlock, Nat.zero_le _, by simpa using h.framed⟩
  · refine ⟨c, if_neg hFull, h, ?_, rfl⟩
    exact lt_of_le_of_ne h.room hFull

/-- An escape code, whose two bytes a flush may separate. -/
theorem Closed.putEsc (h : Closed bufSize c w) (hPos : 0 < bufSize)
    (hRoom : c.out.length < bufSize) {f : Frame} {esc : UInt8} (hEnc : f.encode = [ESC, esc])
    (hFits : f.Fits) :
    ∃ c', putEsc bufSize c esc = some c' ∧ Closed bufSize c' (w ++ f.values) ∧
      c'.supportsZeroCopy = c.supportsZeroCopy := by
  have hFrame := h.framed.concat hFits
  rw [hEnc] at hFrame
  by_cases hFull : c.out.length + 1 = bufSize
  · refine ⟨{ c with sent := c.sent ++ (c.out ++ [ESC]), out := [esc] }, ?_, ⟨h.noBlock, ?_, ?_⟩,
      rfl⟩
    · simp [ChannelTcp.putEsc, put, ChannelTcp.flushFull, tcpFlushWithFlags, hRoom, hFull,
        h.noBlock, hPos]
    · exact hPos
    · simpa using hFrame
  · refine ⟨{ c with out := c.out ++ [ESC] ++ [esc] }, ?_, ⟨h.noBlock, ?_, ?_⟩, rfl⟩
    · have hRoom' : c.out.length + 1 < bufSize := by omega
      simp [ChannelTcp.putEsc, put, ChannelTcp.flushFull, hRoom, hFull, hRoom']
    · simp only [List.length_append, List.length_singleton]
      omega
    · simpa using hFrame

/-- Opening a block with its first byte. -/
theorem Closed.start (h : Closed bufSize c w) (hRoom : c.out.length + 32 < bufSize)
    (hZc : c.supportsZeroCopy = true) (b : UInt8) :
    ∃ c', tcpBinBlockStart bufSize c = some c' ∧
      ∃ c'', put bufSize c' b = some c'' ∧ Open bufSize c'' (w ++ [.byte b]) c.out [b] := by
  have hBlock : tcpBinBlockStart bufSize c =
      some { c with
        out := c.out ++ header bufSize
        outBinBlock := some (c.out ++ header bufSize).length } := by
    have h1 : c.out.length < bufSize := by omega
    have h2 : c.out.length + 1 < bufSize := by omega
    have h3 : c.out.length + 2 < bufSize := by omega
    have h4 : c.out.length + 3 < bufSize := by omega
    have h5 : c.out.length + 4 < bufSize := by omega
    rcases sizeBytes_cases bufSize with ⟨hBig, hBytes⟩ | ⟨hSmall, hBytes⟩
    · simp [tcpBinBlockStart, put, header, hBytes, hBig, h1, h2, h3, h4, h5, List.replicate]
    · have hNot : ¬ 0x4000 < bufSize := by omega
      simp [tcpBinBlockStart, put, header, hBytes, hNot, h1, h2, h3, h4, List.replicate]
  have hLen : (c.out ++ header bufSize).length < bufSize := by
    rw [List.length_append, header_length]
    rcases sizeBytes_cases bufSize with ⟨_, hBytes⟩ | ⟨_, hBytes⟩ <;> omega
  refine ⟨_, hBlock, _, put_eq _ b hLen, hZc, rfl, rfl, ?_, by simp, w, h.framed, rfl⟩
  simp only [List.length_append, List.length_singleton] at hLen ⊢
  omega

/-! ## The calls -/

section Calls

variable (hBuf : 32 < bufSize) (hSize : c.supportsZeroCopy = true → bufSize ≤ 2 ^ 21 + 4)

/-- What every call promises: it succeeds, and the values are written. -/
def Writes (bufSize : Nat) (c : ChannelTCP) (w vs : List Value) (r : Option ChannelTCP) : Prop :=
  ∃ c', r = some c' ∧ Inv bufSize c' (w ++ vs) ∧ c'.supportsZeroCopy = c.supportsZeroCopy

include hSize in
theorem closeBlock_closed (h : Inv bufSize c w) : Closed bufSize (closeBlock bufSize c) w := by
  rcases h with h | ⟨pre, data, h⟩
  · rw [closeBlock, h.noBlock]
    exact h
  · exact closed_of_open (hSize h.zeroCopy) h

include hBuf hSize in
/-- A marker closes the block. -/
theorem tcpWriteStream_marker (h : Inv bufSize c w) {v : Value} (hv : v.toInt < 0) :
    ∃ c', tcpWriteStream bufSize c v = some c' ∧ Closed bufSize c' (w ++ [v]) ∧
      c'.supportsZeroCopy = c.supportsZeroCopy := by
  obtain ⟨c1, hFlush, hClosed, hRoom, hZc⟩ := (closeBlock_closed hSize h).flushFull (by omega)
  rw [closeBlock_zeroCopy] at hZc
  rw [tcpWriteStream, if_pos (Or.inr (Or.inr hv)), hFlush]
  cases v with
  | byte b => exact absurd hv (by simp [Value.toInt])
  | eom =>
    obtain ⟨c2, hPut, hClosed2, hZc2⟩ := hClosed.putEsc (f := .eom) (by omega) hRoom rfl trivial
    exact ⟨c2, hPut, hClosed2, hZc2.trans hZc⟩
  | eos =>
    obtain ⟨c2, hPut, hClosed2, hZc2⟩ := hClosed.putEsc (f := .eos) (by omega) hRoom rfl trivial
    exact ⟨c2, hPut, hClosed2, hZc2.trans hZc⟩

include hBuf hSize in
theorem tcpWriteStream_byte (h : Inv bufSize c w) (b : UInt8) :
    Writes bufSize c w [.byte b] (tcpWriteStream bufSize c (.byte b)) := by
  by_cases hRaw : c.supportsZeroCopy = false ∨ bufSize ≤ c.out.length + 32 ∨
      (Value.byte b).toInt < 0
  · -- no zero copy, or too close to the end of the buffer: the block is closed
    obtain ⟨c1, hFlush, hClosed, hRoom, hZc⟩ := (closeBlock_closed hSize h).flushFull (by omega)
    rw [closeBlock_zeroCopy] at hZc
    rw [tcpWriteStream, if_pos hRaw, hFlush]
    by_cases hEsc : b = ESC
    · obtain ⟨c2, hPut, hClosed2, hZc2⟩ :=
        hClosed.putEsc (f := .escByte) (by omega) hRoom rfl trivial
      refine ⟨c2, ?_, Or.inl ?_, hZc2.trans hZc⟩
      · simpa [hEsc] using hPut
      · rw [hEsc]
        exact hClosed2
    · refine ⟨{ c1 with out := c1.out ++ [b] }, ?_, Or.inl ?_, hZc⟩
      · simpa [hEsc] using put_eq c1 b hRoom
      · exact hClosed.append_plain (by simpa using Ne.symm hEsc) hRoom
  · -- a byte of a block, of a new one if none is open
    rw [tcpWriteStream, if_neg hRaw]
    simp only [not_or, not_le, Bool.not_eq_false] at hRaw
    obtain ⟨hZc, hRoom, -⟩ := hRaw
    rcases h with h | ⟨pre, data, h⟩
    · obtain ⟨c1, hStart, c2, hPut, hOpen⟩ := h.start hRoom hZc b
      refine ⟨c2, ?_, Or.inr ⟨_, _, hOpen⟩, ?_⟩
      · simp [h.noBlock, hStart, hPut]
      · rw [hOpen.zeroCopy, hZc]
    · refine ⟨{ c with out := c.out ++ [b] }, ?_, Or.inr ⟨_, _, h.append [b] ?_⟩, rfl⟩
      · simpa [h.block] using put_eq c b (by omega)
      · simp only [List.length_singleton]
        omega

include hBuf hSize in
theorem writeStream_byte (h : Inv bufSize c w) (b : UInt8) :
    Writes bufSize c w [.byte b] (writeStream bufSize c (.byte b)) := by
  by_cases hRaw : 3 < b ∧ c.out.length < bufSize
  · have hEsc : b ≠ ESC := (UInt8.ne_of_lt hRaw.1).symm
    rw [writeStream, if_pos hRaw]
    refine ⟨_, rfl, ?_, rfl⟩
    rcases h with h | ⟨pre, data, h⟩
    · exact Or.inl (h.append_plain (by simpa using Ne.symm hEsc) hRaw.2)
    · exact Or.inr ⟨_, _, h.append [b] hRaw.2⟩
  · rw [writeStream, if_neg hRaw]
    exact tcpWriteStream_byte hBuf hSize h b

include hBuf hSize in
theorem writeBlockLoop_writes (h : Inv bufSize c w) {fuel : Nat} {src : List UInt8}
    (hFuel : src.length ≤ fuel) :
    Writes bufSize c w (src.map .byte) (writeBlockLoop bufSize fuel c src) := by
  induction fuel generalizing c w src with
  | zero =>
    obtain rfl : src = [] := List.length_eq_zero_iff.mp (by omega)
    exact ⟨c, rfl, by simpa using h, rfl⟩
  | succ fuel ih =>
    cases src with
    | nil => exact ⟨c, rfl, by simpa using h, rfl⟩
    | cons b src =>
      rw [List.length_cons] at hFuel
      -- a round that hands one byte to `tcp_write_stream`
      have hOne : Writes bufSize c w ((b :: src).map .byte) (do
          let c ← tcpWriteStream bufSize c (.byte b)
          writeBlockLoop bufSize fuel c src) := by
        obtain ⟨c1, hWrite, hInv, hZc⟩ := tcpWriteStream_byte hBuf hSize h b
        have hLen : src.length ≤ fuel := by omega
        obtain ⟨c2, hLoop, hInv2, hZc2⟩ := ih (by rwa [hZc]) hInv hLen
        refine ⟨c2, ?_, by simpa using hInv2, hZc2.trans hZc⟩
        simp [hWrite, hLoop]
      -- a round that copies `m` bytes
      have hCopy {m : Nat} (hPos : 0 < m) (hLe : m ≤ src.length + 1)
          (hInv : Inv bufSize { c with out := c.out ++ (b :: src).take m }
            (w ++ ((b :: src).take m).map .byte)) :
          Writes bufSize c w ((b :: src).map .byte)
            (writeBlockLoop bufSize fuel { c with out := c.out ++ (b :: src).take m }
              ((b :: src).drop m)) := by
        have hLen : ((b :: src).drop m).length ≤ fuel := by
          rw [List.length_drop, List.length_cons]
          omega
        obtain ⟨c2, hLoop, hInv2, hZc2⟩ := ih (by exact hSize) hInv hLen
        refine ⟨c2, hLoop, ?_, hZc2⟩
        rwa [List.append_assoc, ← List.map_append, List.take_append_drop] at hInv2
      have hRoom := h.room
      have hTake {m : Nat} (hLe : m ≤ bufSize - c.out.length) :
          c.out.length + ((b :: src).take m).length ≤ bufSize := by
        rw [List.length_take]
        omega
      rw [writeBlockLoop]
      simp only [ne_eq]
      split_ifs with hFull hBlock hEsc
      · exact hOne
      · exact hOne
      · -- no block is open, and the bytes up to the next escape are copied
        set copied := ((b :: src).take (min (bufSize - c.out.length) (src.length + 1))).takeWhile
          fun x => decide ¬ x = ESC with hDef
        have hPrefix : copied = (b :: src).take copied.length :=
          List.prefix_iff_eq_take.mp
            ((List.takeWhile_prefix _).trans (List.take_prefix _ _))
        have hNoEsc : ESC ∉ copied := by
          intro hMem
          simpa using List.mem_takeWhile_imp hMem
        have hPos : 0 < copied.length := by
          obtain ⟨m, hm⟩ := Nat.exists_eq_succ_of_ne_zero hFull
          simp [hDef, hm, hEsc]
        have hLe : copied.length ≤ min (bufSize - c.out.length) (src.length + 1) :=
          (List.takeWhile_prefix _).length_le.trans (List.length_take_le _ _)
        have hClosed : Closed bufSize c w := by
          rcases h with h | ⟨pre, data, h⟩
          · exact h
          · rw [h.block] at hBlock
            cases hBlock
        have hInv := hClosed.append_plain hNoEsc (by omega)
        rw [hPrefix] at hInv ⊢
        have hLen : ((b :: src).take copied.length).length = copied.length := by rw [← hPrefix]
        rw [hLen]
        exact hCopy hPos (by omega) (Or.inl hInv)
      · -- in an open block whatever fits is copied
        rcases h with h | ⟨pre, data, h⟩
        · exact absurd h.noBlock hBlock
        · exact hCopy (Nat.pos_of_ne_zero hFull) (min_le_right _ _)
            (Or.inr ⟨_, _, h.append _ (hTake (min_le_left _ _))⟩)

include hBuf hSize in
theorem writeString_writes (h : Inv bufSize c w) (str : List UInt8) :
    Writes bufSize c w (str.map .byte) (writeString bufSize c str) := by
  induction str generalizing c w with
  | nil => exact ⟨c, rfl, by simpa using h, rfl⟩
  | cons ch str ih =>
    rw [writeString]
    split_ifs with hRaw
    · have hInv : Inv bufSize { c with out := c.out ++ [ch] } (w ++ [.byte ch]) := by
        rcases h with h | ⟨pre, data, h⟩
        · exact Or.inl (h.append_plain (by simpa using Ne.symm hRaw.1) hRaw.2)
        · exact Or.inr ⟨_, _, h.append [ch] hRaw.2⟩
      obtain ⟨c2, hRest, hInv2, hZc2⟩ := ih (by exact hSize) hInv
      exact ⟨c2, hRest, by simpa using hInv2, hZc2⟩
    · obtain ⟨c1, hWrite, hInv, hZc⟩ := tcpWriteStream_byte hBuf hSize h ch
      obtain ⟨c2, hRest, hInv2, hZc2⟩ := ih (by rwa [hZc]) hInv
      exact ⟨c2, by simp [hWrite, hRest], by simpa using hInv2, hZc2.trans hZc⟩

/-- The calls that write a marker. -/
def Op.IsMarker : Op → Prop
  | .eom _ => True
  | .eos => True
  | _ => False

include hBuf hSize in
/-- A marker leaves no block open, flushed or not. -/
theorem step_marker (h : Inv bufSize c w) {o : Op} (ho : o.IsMarker) :
    ∃ c', step bufSize c o = some c' ∧ Closed bufSize c' (w ++ o.values) ∧
      c'.supportsZeroCopy = c.supportsZeroCopy := by
  cases o with
  | eom flushed =>
    obtain ⟨c1, hWrite, hClosed, hZc⟩ := tcpWriteStream_marker (v := .eom) hBuf hSize h (by decide)
    cases flushed with
    | false => exact ⟨c1, by simp [step, writeStream, hWrite], hClosed, hZc⟩
    | true =>
      refine ⟨{ c1 with sent := c1.sent ++ c1.out, out := [] }, ?_, ?_, hZc⟩
      · simp [step, writeStream, hWrite, tcpFlushWithFlags, hClosed.noBlock]
      · exact ⟨hClosed.noBlock, Nat.zero_le _, by simpa [Op.values] using hClosed.framed⟩
  | eos =>
    obtain ⟨c1, hWrite, hClosed, hZc⟩ := tcpWriteStream_marker (v := .eos) hBuf hSize h (by decide)
    exact ⟨c1, hWrite, hClosed, hZc⟩
  | byte | block | string | stringz => exact absurd ho id

include hBuf hSize in
/-- **Step lemma.** Every call succeeds and keeps the invariant. -/
theorem step_writes (h : Inv bufSize c w) (op : Op) :
    Writes bufSize c w op.values (step bufSize c op) := by
  cases op with
  | byte b => exact writeStream_byte hBuf hSize h b
  | eom flushed =>
    obtain ⟨c1, hStep, hClosed, hZc⟩ := step_marker hBuf hSize h (o := .eom flushed) trivial
    exact ⟨c1, hStep, Or.inl hClosed, hZc⟩
  | eos =>
    obtain ⟨c1, hStep, hClosed, hZc⟩ := step_marker hBuf hSize h (o := .eos) trivial
    exact ⟨c1, hStep, Or.inl hClosed, hZc⟩
  | block bytes => exact writeBlockLoop_writes hBuf hSize h (le_refl _)
  | string str => exact writeString_writes hBuf hSize h str
  | stringz str =>
    have hWrites := writeString_writes hBuf hSize h (str ++ [0])
    rwa [List.map_append] at hWrites

end Calls

/-! ## Runs -/

/-- A channel just opened. -/
def init (zeroCopy : Bool) : ChannelTCP := { supportsZeroCopy := zeroCopy }

/-- What a sequence of calls writes. -/
def written (ops : List Op) : List Value := ops.flatMap Op.values

theorem init_inv (bufSize : Nat) (zeroCopy : Bool) : Inv bufSize (init zeroCopy) [] :=
  Or.inl ⟨rfl, Nat.zero_le _, Framed.nil⟩

/-- **Run lemma.** A run of calls succeeds and keeps the invariant. -/
theorem run_writes (hBuf : 32 < bufSize) (hSize : c.supportsZeroCopy = true → bufSize ≤ 2 ^ 21 + 4)
    (h : Inv bufSize c w) (ops : List Op) :
    Writes bufSize c w (written ops) (run (step bufSize) c ops) := by
  induction ops generalizing c w with
  | nil => exact ⟨c, rfl, by simpa [written] using h, rfl⟩
  | cons op ops ih =>
    obtain ⟨c1, hStep, hInv, hZc⟩ := step_writes hBuf hSize h op
    obtain ⟨c2, hRun, hInv2, hZc2⟩ := ih (by rwa [hZc]) hInv
    refine ⟨c2, ?_, by simpa [written] using hInv2, hZc2.trans hZc⟩
    rw [run_cons, hStep]
    exact hRun

/-- **The stream written is read back.** In a buffer of more than 32 bytes, and with zero
copy of at most `2^21 + 4`, no call fails, and with the block left open closed, the
bytes are whole frames, every block among them with its length, that decode to what was
written. A marker leaves no block open. -/
theorem writeOps_decode (ub : UInt8 → Nat → Nat) {bufSize : Nat} {zeroCopy : Bool}
    (hBuf : 32 < bufSize) (hSize : zeroCopy = true → bufSize ≤ 2 ^ 21 + 4) (ops : List Op) :
    ∃ c, run (step bufSize) (init zeroCopy) ops = some c ∧ Inv bufSize c (written ops) ∧
      Framed (c.sent ++ (closeBlock bufSize c).out) (written ops) ∧
      decode ub (c.sent ++ (closeBlock bufSize c).out) = (written ops).map .value ∧
      ∀ pre op, ops = pre ++ [op] → op.IsMarker → c.outBinBlock = none := by
  obtain ⟨c, hRun, hInv, hZc⟩ := run_writes hBuf hSize (init_inv bufSize zeroCopy) ops
  have hSize' : c.supportsZeroCopy = true → bufSize ≤ 2 ^ 21 + 4 := by rwa [hZc]
  have hClosed := closeBlock_closed hSize' hInv
  have hSent : (closeBlock bufSize c).sent = c.sent := closeBlock_sent bufSize c
  have hFramed : Framed (c.sent ++ (closeBlock bufSize c).out) (written ops) := by
    rw [← hSent]
    exact hClosed.framed
  refine ⟨c, hRun, hInv, hFramed, hFramed.decode_eq ub, ?_⟩
  rintro pre op rfl hMarker
  obtain ⟨c1, hPre, hInv1, hZc1⟩ := run_writes hBuf hSize (init_inv bufSize zeroCopy) pre
  have hSize1 : c1.supportsZeroCopy = true → bufSize ≤ 2 ^ 21 + 4 := by rwa [hZc1]
  obtain ⟨c2, hStep, hClosed2, -⟩ := step_marker hBuf hSize1 hInv1 hMarker
  have hRun2 := run_concat.mpr ⟨c1, hPre, hStep⟩
  obtain rfl : c2 = c := Option.some.inj (hRun2.symm.trans hRun)
  exact hClosed2.noBlock

theorem writeOps_decode_sample :
    ∃ c, run (step 40) (init true) [.byte 3, .string [65, 3, 66], .eom true] = some c ∧
      decode (fun _ _ => 0) (c.sent ++ (closeBlock 40 c).out) =
        (written [.byte 3, .string [65, 3, 66], .eom true]).map .value := by
  obtain ⟨c, hRun, -, -, hDecode, -⟩ := writeOps_decode (fun _ _ => 0) (by decide : 32 < 40)
    (by decide : true = true → 40 ≤ 2 ^ 21 + 4) [.byte 3, .string [65, 3, 66], .eom true]
  exact ⟨c, hRun, hDecode⟩

/-! ## Longer buffers -/

/-- A block of `2^21` bytes in a buffer just long enough for it: the third byte of the
length is 0x80, which a receiver takes for a digit with another one to follow. -/
theorem longBlock_run (hLen : data.length = 2 ^ 21 - 1) :
    run (step (2 ^ 21 + 5)) (init true) [.byte 3, .block data, .eom false] =
      some ⟨true, [ESC, 1], none, [ESC, 3, 0x80, 0x80, 0x80, 3] ++ data⟩ := by
  have hByte : step (2 ^ 21 + 5) (init true) (.byte 3) =
      some ⟨true, [ESC, 3, 0, 0, 0, 3], some 5, []⟩ := rfl
  obtain ⟨b, src, rfl⟩ : ∃ b src, data = b :: src :=
    List.exists_cons_of_length_pos (by rw [hLen]; omega)
  rw [List.length_cons] at hLen
  have hBlock : step (2 ^ 21 + 5) ⟨true, [ESC, 3, 0, 0, 0, 3], some 5, []⟩ (.block (b :: src)) =
      some ⟨true, [ESC, 3, 0, 0, 0, 3] ++ b :: src, some 5, []⟩ := by
    have hMin : min (2 ^ 21 + 5 - [ESC, 3, 0, 0, 0, 3].length) (src.length + 1) =
        src.length + 1 := by
      rw [List.length_cons, List.length_cons]
      simp only [List.length_cons, List.length_nil]
      omega
    rw [step, tcpWriteBlockStream, List.length_cons, writeBlockLoop]
    simp only [hMin]
    rw [if_neg (by omega), if_pos (by simp), List.take_of_length_le (by simp),
      List.drop_of_length_le (by simp)]
    cases src <;> rfl
  have hEom : step (2 ^ 21 + 5) ⟨true, [ESC, 3, 0, 0, 0, 3] ++ b :: src, some 5, []⟩ (.eom false) =
      some ⟨true, [ESC, 1], none, [ESC, 3, 0x80, 0x80, 0x80, 3] ++ b :: src⟩ := by
    have hOut : ([ESC, 3, 0, 0, 0, 3] ++ b :: src).length = 2 ^ 21 + 5 := by
      simp only [List.length_append, List.length_cons, List.length_nil]
      omega
    have hClose : closeBlock (2 ^ 21 + 5) ⟨true, [ESC, 3, 0, 0, 0, 3] ++ b :: src, some 5, []⟩ =
        ⟨true, [ESC, 3, 0x80, 0x80, 0x80, 3] ++ b :: src, none, []⟩ := by
      simp only [closeBlock, tcpBinBlockEnd, hOut]
      rfl
    have hOut' : ([ESC, 3, 0x80, 0x80, 0x80, 3] ++ b :: src).length = 2 ^ 21 + 5 := hOut
    simp only [step, writeStream, tcpWriteStream]
    rw [if_pos (by simp [Value.toInt]), hClose, flushFull, if_pos hOut']
    rfl
  rw [run_cons, hByte, Option.bind_some, run_cons, hBlock, Option.bind_some, run_cons, hEom]
  rfl

/-- The receiver takes the end of the message for two bytes of a longer block. -/
theorem longBlock_decode (ub : UInt8 → Nat → Nat)
    (hLen : data.length = 2 ^ 21 - 1) :
    decode ub ([ESC, 3, 0x80, 0x80, 0x80, 3] ++ data ++ [ESC, 1]) =
      (data ++ [ESC, 1]).map fun b => .value (.byte b) := by
  have hFit : digitsFit 0 [0, 0, 0, 3] :=
    ⟨shiftDefined_of_lt (by omega), shiftDefined_of_lt (by omega), shiftDefined_of_lt (by omega),
      shiftDefined_of_lt (by omega), trivial⟩
  have hZero : 0 < 2 ^ (7 * 0) := by omega
  have hDigits : ∀ d ∈ [(0 : UInt8), 0, 0, 3], d.toNat < 128 := by simp
  obtain ⟨hSize, hSizeOuts⟩ := read_size ub (List.cons_ne_nil _ _) hDigits hFit hZero
  have hValue : 0 + digitsValue [0, 0, 0, 3] * 2 ^ (7 * 0) =
      (data ++ [ESC, 1]).length + (2 ^ 22 - 1) := by
    rw [List.length_append, hLen]
    rfl
  have hBytes : [ESC, 3, 0x80, 0x80, 0x80, 3] ++ data ++ [ESC, 1] =
      [ESC, 3] ++ (continued [0, 0, 0, 3] ++ (data ++ [ESC, 1])) := by
    rw [List.append_assoc]
    rfl
  rw [hValue] at hSize
  rw [hBytes, decode, Mealy.outs_append, (read_open ub).1, (read_open ub).2, Mealy.outs_append,
    hSize, hSizeOuts, (read_data ub _ _).2]
  rfl

/-- In a buffer of `2^21 + 5` bytes the stream written is not the one read back. -/
theorem writeOps_longBlock :
    ∃ c, run (step (2 ^ 21 + 5)) (init true)
        [.byte 3, .block (List.replicate (2 ^ 21 - 1) 65), .eom false] = some c ∧
      c.outBinBlock = none ∧
      ∀ ub, decode ub (c.sent ++ c.out) ≠
        (written [.byte 3, .block (List.replicate (2 ^ 21 - 1) 65), .eom false]).map .value := by
  have hLen : (List.replicate (2 ^ 21 - 1) (65 : UInt8)).length = 2 ^ 21 - 1 :=
    List.length_replicate
  generalize List.replicate (2 ^ 21 - 1) (65 : UInt8) = data at hLen ⊢
  refine ⟨_, longBlock_run hLen, rfl, ?_⟩
  intro ub hDecode
  -- the last value read is the byte 1, the last one written the end of the message
  have hLast := congrArg List.getLast? ((longBlock_decode ub hLen).symm.trans hDecode)
  have hWritten : written [.byte 3, .block data, .eom false] =
      (.byte 3 :: data.map .byte) ++ [.eom] := by
    simp [written, Op.values]
  rw [hWritten, List.map_append, List.map_append, List.getLast?_append,
    List.getLast?_append] at hLast
  simp at hLast

end TcfAgent.ChannelTcp
