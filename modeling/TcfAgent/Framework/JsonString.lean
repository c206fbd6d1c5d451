import Mathlib

/-!
# JSON strings in fixed buffers

`framework/json.c`: `json_read_string` reads a string into a buffer of the caller, as far as it
fits, and `json_read_boolean` a boolean, from a text in memory. An exception leaves the buffer
as it is then. A C string is what comes before the first zero byte of its buffer.
-/

namespace TcfAgent.JsonString

/-- What a reader stores, whether it fits or not, and what it leaves of the text; `none` is an
exception. -/
structure StringRead where
  written : List UInt8
  rest : Option (List UInt8)
deriving DecidableEq, Repr

def isSpace (c : UInt8) : Bool := c = 32 || (9 ≤ c && c ≤ 13)

def readHexDigit : List UInt8 → Option (Nat × List UInt8)
  | [] => none
  | c :: rest =>
    if 48 ≤ c && c ≤ 57 then some (c.toNat - 48, rest)
    else if 65 ≤ c && c ≤ 70 then some (c.toNat - 65 + 10, rest)
    else if 97 ≤ c && c ≤ 102 then some (c.toNat - 97 + 10, rest)
    else none

def readHexChar (text : List UInt8) : Option (Nat × List UInt8) := do
  let (a, text) ← readHexDigit text
  let (b, text) ← readHexDigit text
  let (c, text) ← readHexDigit text
  let (d, text) ← readHexDigit text
  some (a * 0x1000 + b * 0x100 + c * 0x10 + d, text)

/-- The UTF-8 sequence of a character of at most 16 bits. -/
def utf8 (ch : Nat) : List UInt8 :=
  if ch < 0x80 then [ch.toUInt8]
  else if ch < 0x800 then [(0xc0 + ch / 0x40).toUInt8, (0x80 + ch % 0x40).toUInt8]
  else [(0xe0 + ch / 0x1000).toUInt8, (0x80 + ch / 0x40 % 0x40).toUInt8,
    (0x80 + ch % 0x40).toUInt8]

/-- `read_esc_char`, after the backslash. -/
def readEscChar : List UInt8 → Option (List UInt8 × List UInt8)
  | [] => none
  | c :: rest =>
    if c = 34 || c = 92 || c = 47 then some ([c], rest)
    else if c = 98 then some ([8], rest)
    else if c = 102 then some ([12], rest)
    else if c = 110 then some ([10], rest)
    else if c = 114 then some ([13], rest)
    else if c = 116 then some ([9], rest)
    else if c = 117 then (readHexChar rest).map fun (ch, rest) => (utf8 ch, rest)
    else none

/-- The loop of `json_read_string`; the text is longer than the number of rounds. -/
def readChars : Nat → List UInt8 → List UInt8 → StringRead
  | 0, written, _ => ⟨written, none⟩
  | _ + 1, written, [] => ⟨written, none⟩
  | n + 1, written, c :: rest =>
    if c = 34 then ⟨written, some rest⟩
    else if c = 92 then
      match readEscChar rest with
      | none => ⟨written, none⟩
      | some (cs, rest) => readChars n (written ++ cs) rest
    else readChars n (written ++ [c]) rest

/-- `json_read_string`; `null` is read as an empty string. -/
def jsonReadString (text : List UInt8) : StringRead :=
  match text.dropWhile isSpace with
  | 110 :: 117 :: 108 :: 108 :: rest => ⟨[], some rest⟩
  | 34 :: rest => readChars (rest.length + 1) [] rest
  | _ => ⟨[], none⟩

/-- `json_read_boolean` -/
def jsonReadBoolean (text : List UInt8) : Option Bool :=
  match text.dropWhile isSpace with
  | 116 :: 114 :: 117 :: 101 :: _ => some true
  | 102 :: 97 :: 108 :: 115 :: 101 :: _ => some false
  | _ => none

/-- The buffer of `size` bytes, after a string has been read into it. -/
def storeString (size : Nat) (buf : List UInt8) (r : StringRead) : List UInt8 :=
  let written := r.written.take (size - 1)
  if r.rest.isSome then written ++ 0 :: buf.drop (written.length + 1)
  else written ++ buf.drop written.length

def cString (buf : List UInt8) : List UInt8 := buf.takeWhile (· ≠ 0)

/-- What was in the buffer before does not matter when the string has been read. -/
theorem cString_storeString (size : Nat) (buf : List UInt8) {r : StringRead}
    (h : r.rest.isSome = true) :
    cString (storeString size buf r) = cString (r.written.take (size - 1)) := by
  unfold storeString cString
  rw [if_pos h, List.takeWhile_append]
  split
  · rename_i hLength
    have hAll := (List.takeWhile_prefix (fun x => decide (x ≠ 0))).eq_of_length hLength
    rw [hAll]
    simp
  · rfl

end TcfAgent.JsonString
