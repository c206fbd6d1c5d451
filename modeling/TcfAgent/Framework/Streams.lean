import TcfAgent.Lib.Mealy
import Mathlib.Data.Nat.Bitwise
import Mathlib.Tactic

/-!
# Byte streams and their escape codes

What a channel carries is a sequence of values — bytes and the two markers of
`framework/streams.h` — written as bytes: `ESC 0` is the byte 3 itself, `ESC 1` an end
of message, `ESC 2` an end of stream, and `ESC 3` opens a block of raw bytes, after a
size in base 128, least significant digit first, with bit 7 set in all digits but
the last.

`escape` is the machine both halves of `framework/inputbuf.c` run over the received
bytes, one when they arrive and one when they are read. `Frame` is what a
well-behaved peer sends, and `outs_encode` says that the machine reads a sequence of
frames back.

The sizes are built in C `int`: `(ch & 0x7f) << (mode - 1) * 7` is undefined once the
shift count reaches 32 or the result 2^31. What the compiled code computes there is
the parameter `ub`.
-/

namespace TcfAgent.Streams

open TcfAgent.Lib

def ESC : UInt8 := 3

/-- What `read_stream` returns: a byte, `MARKER_EOM` or `MARKER_EOS`. -/
inductive Value where
  | byte (b : UInt8)
  | eom
  | eos
deriving DecidableEq, Repr

/-- The `int` that stands for a value. -/
def Value.toInt : Value → Int
  | .byte b => b.toNat
  | .eom => -1
  | .eos => -2

/-- What the machine finds in the bytes: a value, or an escape code that is none. -/
inductive Symbol where
  | value (v : Value)
  | invalid (code : UInt8)
deriving DecidableEq, Repr

/-- `inp_esc`, `inp_size_mode` and `inp_data_size`, or the same three of the reader. -/
structure EscState where
  esc      : Bool := false
  sizeMode : Nat := 0
  dataSize : Nat := 0
deriving DecidableEq, Repr

/-- Whether C defines `(ch & 0x7f) << (sizeMode - 1) * 7`. -/
def ShiftDefined (ch : UInt8) (sizeMode : Nat) : Prop :=
  (sizeMode - 1) * 7 < 32 ∧ (ch &&& 0x7f).toNat <<< ((sizeMode - 1) * 7) < 2 ^ 31

instance (ch : UInt8) (sizeMode : Nat) : Decidable (ShiftDefined ch sizeMode) :=
  inferInstanceAs (Decidable (_ ∧ _))

/-- `(ch & 0x7f) << (sizeMode - 1) * 7` as a `size_t`. -/
def sizeBits (ub : UInt8 → Nat → Nat) (ch : UInt8) (sizeMode : Nat) : Nat :=
  if ShiftDefined ch sizeMode then (ch &&& 0x7f).toNat <<< ((sizeMode - 1) * 7)
  else ub ch sizeMode

def escNext (ub : UInt8 → Nat → Nat) (s : EscState) (ch : UInt8) : EscState :=
  if s.sizeMode ≠ 0 then
    { s with
      dataSize := s.dataSize ||| sizeBits ub ch s.sizeMode
      sizeMode := if ch &&& 0x80 = 0 then 0 else s.sizeMode + 1 }
  else if 0 < s.dataSize then { s with dataSize := s.dataSize - 1 }
  else if s.esc then
    if ch = 3 then { esc := false, sizeMode := 1, dataSize := 0 } else { s with esc := false }
  else if ch = ESC then { s with esc := true }
  else s

def escOut (s : EscState) (ch : UInt8) : List Symbol :=
  if s.sizeMode ≠ 0 then []
  else if 0 < s.dataSize then [.value (.byte ch)]
  else if s.esc then
    if ch = 0 then [.value (.byte ESC)]
    else if ch = 1 then [.value .eom]
    else if ch = 2 then [.value .eos]
    else if ch = 3 then []
    else [.invalid ch]
  else if ch = ESC then []
  else [.value (.byte ch)]

/-- The machine that undoes the escaping. -/
def escape (ub : UInt8 → Nat → Nat) : Mealy EscState UInt8 Symbol where
  next := escNext ub
  out := escOut

/-- The values written in a list of bytes. -/
def decode (ub : UInt8 → Nat → Nat) (bytes : List UInt8) : List Symbol :=
  (escape ub).outs {} bytes

/-! ## Frames -/

/-- A size in base 128, least significant digit first. It may have leading zeros. -/
structure SizePrefix where
  digits   : List UInt8
  nonempty : digits ≠ []
  lt       : ∀ d ∈ digits, d.toNat < 128

/-- The digits as they are sent: bit 7 says that another one follows. -/
def continued : List UInt8 → List UInt8
  | [] => []
  | [d] => [d]
  | d :: e :: ds => (d ||| 0x80) :: continued (e :: ds)

def digitsValue : List UInt8 → Nat
  | [] => 0
  | d :: ds => d.toNat + 128 * digitsValue ds

/-- Whether C defines all the shifts that read the digits, the first being number `i`. -/
def digitsFit : Nat → List UInt8 → Prop
  | _, [] => True
  | i, d :: ds => ShiftDefined d (i + 1) ∧ digitsFit (i + 1) ds

/-- One unit of a well-formed stream. -/
inductive Frame where
  | plain (b : UInt8) (h : b ≠ ESC)
  | escByte
  | eom
  | eos
  | block (size : SizePrefix) (data : List UInt8) (h : digitsValue size.digits = data.length)

namespace Frame

def encode : Frame → List UInt8
  | plain b _ => [b]
  | escByte => [ESC, 0]
  | eom => [ESC, 1]
  | eos => [ESC, 2]
  | block size data _ => ESC :: 3 :: continued size.digits ++ data

def values : Frame → List Value
  | plain b _ => [.byte b]
  | escByte => [.byte ESC]
  | eom => [.eom]
  | eos => [.eos]
  | block _ data _ => data.map .byte

/-- The size of the block, if it is one, can be read by the receiver's `int` arithmetic. -/
def Fits : Frame → Prop
  | block size _ _ => digitsFit 0 size.digits
  | _ => True

end Frame

/-- The bytes of a sequence of frames. -/
def encode (fs : List Frame) : List UInt8 := fs.flatMap Frame.encode

/-- The values of a sequence of frames: the stream without its escape codes. -/
def values (fs : List Frame) : List Value := fs.flatMap Frame.values

/-! ## The machine on one byte -/

theorem toNat_and_7f (ch : UInt8) : (ch &&& 0x7f).toNat = ch.toNat % 128 := by
  rw [UInt8.toNat_and]
  exact Nat.and_two_pow_sub_one_eq_mod ch.toNat 7

theorem and_80_eq_zero (ch : UInt8) : ch &&& 0x80 = 0 ↔ ch.toNat < 128 := by
  have hAll : ∀ n : Fin 256, (n.val &&& 128 = 0 ↔ n.val < 128) := by decide +kernel
  rw [← UInt8.toNat_inj, UInt8.toNat_and]
  exact hAll ⟨ch.toNat, ch.toNat_lt⟩

theorem toNat_or_80 {d : UInt8} (h : d.toNat < 128) : (d ||| 0x80).toNat = d.toNat + 128 := by
  have hAll : ∀ n : Fin 128, n.val ||| 128 = n.val + 128 := by decide
  rw [UInt8.toNat_or]
  exact hAll ⟨d.toNat, h⟩

/-- A digit with the continuation bit is read as the digit. -/
theorem sizeBits_eq {ub : UInt8 → Nat → Nat} {d ch : UInt8} {i : Nat} (hd : d.toNat < 128)
    (hCh : ch.toNat % 128 = d.toNat) (hFit : ShiftDefined d (i + 1)) :
    sizeBits ub ch (i + 1) = d.toNat * 2 ^ (7 * i) := by
  have hSame : (ch &&& 0x7f).toNat = (d &&& 0x7f).toNat := by
    rw [toNat_and_7f, toNat_and_7f, hCh, Nat.mod_eq_of_lt hd]
  have hFitCh : ShiftDefined ch (i + 1) := by
    unfold ShiftDefined at hFit ⊢
    rwa [hSame]
  rw [sizeBits, if_pos hFitCh, toNat_and_7f, hCh, Nat.shiftLeft_eq, Nat.add_sub_cancel,
    Nat.mul_comm i 7]

section Machine

variable (ub : UInt8 → Nat → Nat)

/-- Reading one digit of a size. -/
theorem next_digit {d ch : UInt8} {i acc : Nat} (hd : d.toNat < 128)
    (hCh : ch.toNat % 128 = d.toNat) (hFit : ShiftDefined d (i + 1)) (hAcc : acc < 2 ^ (7 * i)) :
    (escape ub).next ⟨false, i + 1, acc⟩ ch =
      ⟨false, if ch.toNat < 128 then 0 else i + 2, acc + d.toNat * 2 ^ (7 * i)⟩ := by
  have hOr : acc ||| d.toNat * 2 ^ (7 * i) = acc + d.toNat * 2 ^ (7 * i) := by
    rw [Nat.lor_comm, ← Nat.shiftLeft_eq, ← Nat.shiftLeft_add_eq_or_of_lt hAcc, Nat.add_comm]
  simp only [escape, escNext, ne_eq, Nat.add_eq_zero_iff, one_ne_zero, and_false, not_false_eq_true,
    if_true, sizeBits_eq hd hCh hFit, hOr, and_80_eq_zero]

/-- Reading a whole size leaves the machine in front of the raw bytes. -/
theorem read_size {digits : List UInt8} (hNe : digits ≠ []) (hLt : ∀ d ∈ digits, d.toNat < 128)
    {i acc : Nat} (hFit : digitsFit i digits) (hAcc : acc < 2 ^ (7 * i)) :
    (escape ub).final ⟨false, i + 1, acc⟩ (continued digits) =
        ⟨false, 0, acc + digitsValue digits * 2 ^ (7 * i)⟩ ∧
      (escape ub).outs ⟨false, i + 1, acc⟩ (continued digits) = [] := by
  induction digits generalizing i acc with
  | nil => exact absurd rfl hNe
  | cons d ds ih =>
    obtain ⟨hShift, hRest⟩ := hFit
    have hd : d.toNat < 128 := hLt d (List.mem_cons_self ..)
    cases ds with
    | nil =>
      have hNext := next_digit ub hd (Nat.mod_eq_of_lt hd) hShift hAcc
      rw [if_pos hd] at hNext
      rw [continued, Mealy.final_cons, Mealy.outs_cons, hNext]
      exact ⟨by simp [digitsValue], by simp [escape, escOut]⟩
    | cons e ds =>
      have hOr := toNat_or_80 hd
      have hNext : (escape ub).next ⟨false, i + 1, acc⟩ (d ||| 0x80) = _ :=
        next_digit ub hd (by omega) hShift hAcc
      rw [if_neg (by omega)] at hNext
      have hAcc' : acc + d.toNat * 2 ^ (7 * i) < 2 ^ (7 * (i + 1)) := by
        have hLe : d.toNat * 2 ^ (7 * i) ≤ 127 * 2 ^ (7 * i) :=
          Nat.mul_le_mul_right _ (by omega)
        have hPow : (2 : Nat) ^ (7 * (i + 1)) = 128 * 2 ^ (7 * i) := by
          rw [Nat.mul_add, Nat.pow_add, Nat.mul_comm]
        omega
      obtain ⟨hFinal, hOuts⟩ := ih (List.cons_ne_nil e ds)
        (fun x hx => hLt x (List.mem_cons_of_mem _ hx)) hRest hAcc'
      rw [continued, Mealy.final_cons, Mealy.outs_cons, hNext, hFinal, hOuts]
      refine ⟨?_, by simp [escape, escOut]⟩
      have hValue : digitsValue (d :: e :: ds) = d.toNat + 128 * digitsValue (e :: ds) := rfl
      rw [hValue, Nat.mul_add 7 i 1, Nat.pow_add]
      congr 1
      ring

/-- Raw bytes are taken as they are, as many as the size says. -/
theorem read_data (data : List UInt8) (extra : Nat) :
    (escape ub).final ⟨false, 0, data.length + extra⟩ data = ⟨false, 0, extra⟩ ∧
      (escape ub).outs ⟨false, 0, data.length + extra⟩ data =
        data.map fun b => .value (.byte b) := by
  induction data with
  | nil => simp
  | cons b data ih =>
    have hNext : (escape ub).next ⟨false, 0, (b :: data).length + extra⟩ b =
        ⟨false, 0, data.length + extra⟩ := by
      simp only [escape, escNext, List.length_cons]
      rw [if_neg (by simp), if_pos (by omega)]
      congr 1
      omega
    have hOut : (escape ub).out ⟨false, 0, (b :: data).length + extra⟩ b =
        [.value (.byte b)] := by
      simp only [escape, escOut, List.length_cons]
      rw [if_neg (by simp), if_pos (by omega)]
    rw [Mealy.final_cons, Mealy.outs_cons, hNext, hOut, ih.1, ih.2]
    exact ⟨rfl, rfl⟩

/-- Raw bytes, at most as many as the block has left. -/
theorem read_raw {k : Nat} {d : List UInt8} (h : d.length ≤ k) :
    (escape ub).final ⟨false, 0, k⟩ d = ⟨false, 0, k - d.length⟩ ∧
      (escape ub).outs ⟨false, 0, k⟩ d = d.map fun b => .value (.byte b) := by
  have hRead := read_data ub d (k - d.length)
  rwa [Nat.add_sub_cancel' h] at hRead

/-- Bytes that need no escape, between blocks. -/
theorem read_plain {data : List UInt8} (h : ESC ∉ data) :
    (escape ub).final {} data = {} ∧
      (escape ub).outs {} data = data.map fun b => .value (.byte b) := by
  induction data with
  | nil => exact ⟨rfl, rfl⟩
  | cons b data ih =>
    have hb : b ≠ ESC := fun hb => h (hb ▸ List.mem_cons_self ..)
    have hNext : (escape ub).next {} b = {} := by simp [escape, escNext, hb]
    have hOut : (escape ub).out {} b = [.value (.byte b)] := by simp [escape, escOut, hb]
    obtain ⟨hFinal, hOuts⟩ := ih fun hm => h (List.mem_cons_of_mem _ hm)
    rw [Mealy.final_cons, Mealy.outs_cons, hNext, hOut, hFinal, hOuts]
    exact ⟨rfl, rfl⟩

/-- The header of a block, up to its size. -/
theorem read_open :
    (escape ub).final {} [ESC, 3] = ⟨false, 1, 0⟩ ∧ (escape ub).outs {} [ESC, 3] = [] := by
  simp [escape, escNext, escOut, ESC]

/-- The machine reads one frame back and is ready for the next. -/
theorem read_frame {f : Frame} (hFits : f.Fits) :
    (escape ub).final {} f.encode = {} ∧
      (escape ub).outs {} f.encode = f.values.map .value := by
  cases f with
  | plain b hb => simp [Frame.encode, Frame.values, escape, escNext, escOut, hb]
  | escByte => simp [Frame.encode, Frame.values, escape, escNext, escOut, ESC]
  | eom => simp [Frame.encode, Frame.values, escape, escNext, escOut, ESC]
  | eos => simp [Frame.encode, Frame.values, escape, escNext, escOut, ESC]
  | block size data hSize =>
    have hZero : 0 < 2 ^ (7 * 0) := by simp
    obtain ⟨hFinal, hOuts⟩ := read_size ub size.nonempty size.lt hFits hZero
    obtain ⟨hFinal', hOuts'⟩ := read_data ub data 0
    obtain ⟨hOpen, hOpenOuts⟩ := read_open ub
    simp only [Nat.zero_add, Nat.mul_zero, Nat.pow_zero, Nat.mul_one] at hFinal hOuts
    simp only [Nat.add_zero] at hFinal' hOuts'
    have hEncode : Frame.encode (.block size data hSize) =
        [ESC, 3] ++ (continued size.digits ++ data) := rfl
    rw [hEncode]
    simp only [Mealy.final_append, Mealy.outs_append, hOpen, hOpenOuts, hFinal, hOuts, hSize,
      hFinal', hOuts', List.nil_append, Frame.values, List.map_map]
    exact ⟨trivial, rfl⟩

/-- **The machine undoes the framing.** -/
theorem outs_encode {fs : List Frame} (hFits : ∀ f ∈ fs, f.Fits) :
    (escape ub).final {} (encode fs) = {} ∧ decode ub (encode fs) = (values fs).map .value := by
  induction fs with
  | nil => exact ⟨rfl, rfl⟩
  | cons f fs ih =>
    obtain ⟨hFinal, hOuts⟩ := ih fun g hg => hFits g (List.mem_cons_of_mem _ hg)
    obtain ⟨hFrame, hFrameOuts⟩ := read_frame ub (hFits f (List.mem_cons_self ..))
    have hEncode : encode (f :: fs) = f.encode ++ encode fs := List.flatMap_cons
    have hValues : values (f :: fs) = f.values ++ values fs := List.flatMap_cons
    rw [hEncode, hValues, decode, Mealy.final_append, Mealy.outs_append, hFrame, hFrameOuts,
      List.map_append]
    exact ⟨hFinal, congrArg _ hOuts⟩

end Machine

/-! ## Whole frames -/

/-- The bytes are whole frames a receiver can read, and the frames hold the values. -/
def Framed (bytes : List UInt8) (vs : List Value) : Prop :=
  ∃ fs : List Frame, (∀ f ∈ fs, f.Fits) ∧ encode fs = bytes ∧ values fs = vs

namespace Framed

theorem nil : Framed [] [] := ⟨[], by simp, rfl, rfl⟩

variable {bytes : List UInt8} {vs : List Value}

theorem concat (h : Framed bytes vs) {f : Frame}
    (hFits : f.Fits) : Framed (bytes ++ f.encode) (vs ++ f.values) := by
  obtain ⟨fs, hAll, rfl, rfl⟩ := h
  refine ⟨fs ++ [f], ?_, by simp [encode], by simp [values]⟩
  intro g hg
  rcases List.mem_append.mp hg with hg | hg
  · exact hAll g hg
  · rwa [List.mem_singleton.mp hg]

/-- Bytes that need no escape are frames of their own. -/
theorem append_plain (h : Framed bytes vs)
    {data : List UInt8} (hData : ESC ∉ data) :
    Framed (bytes ++ data) (vs ++ data.map .byte) := by
  induction data generalizing bytes vs with
  | nil => simpa using h
  | cons b data ih =>
    have hb : b ≠ ESC := fun hb => hData (hb ▸ List.mem_cons_self ..)
    have hRest : ESC ∉ data := fun hm => hData (List.mem_cons_of_mem _ hm)
    have hStep : Framed (bytes ++ [b]) (vs ++ [.byte b]) := h.concat (f := .plain b hb) trivial
    simpa using ih hStep hRest

theorem decode_eq (h : Framed bytes vs)
    (ub : UInt8 → Nat → Nat) : decode ub bytes = vs.map .value := by
  obtain ⟨fs, hAll, rfl, rfl⟩ := h
  exact (outs_encode ub hAll).2

end Framed

end TcfAgent.Streams
