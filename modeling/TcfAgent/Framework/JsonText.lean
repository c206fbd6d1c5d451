import TcfAgent.Framework.JsonString

/-!
# Writing and reading JSON text

The writers of `framework/json.c` for strings and numbers, and the readers that do not keep to a
buffer. A text is what is left in the input stream, with 0 for `MARKER_EOA`; `none` is an
exception. `JsonBuffers` and `JsonIntegers` have the same functions with their buffers and loops,
and refine these.

Main results:

* `jsonReadString_write`, `jsonReadAllocString_write` — a string is read as it was written;
* `jsonReadUint64_write`, `jsonReadLong_write`        — and so is a number.
-/

namespace TcfAgent.JsonText

open TcfAgent.JsonString

/-- A C string, without the zero at its end, or a part of a stream. -/
abbrev Text := List UInt8

def ascii (s : String) : Text := s.toList.map fun c => UInt8.ofNat c.toNat

/-! ## Strings -/

def charEscaping (c : UInt8) : Bool := c < 32 || c = 34 || c = 92 || c = 127

def hexDigit (n : Nat) : UInt8 := if n < 10 then UInt8.ofNat (48 + n) else UInt8.ofNat (55 + n)

/-- `write_escape_seq` -/
def writeEscapeSeq (c : UInt8) : Text :=
  if c = 34 ∨ c = 92 then [92, c]
  else if c = 8 then [92, 98]
  else if c = 12 then [92, 102]
  else if c = 10 then [92, 110]
  else if c = 13 then [92, 114]
  else if c = 9 then [92, 116]
  else [92, 117, 48, 48, hexDigit (c.toNat / 16), hexDigit (c.toNat % 16)]

/-- `json_write_char` -/
def jsonWriteChar (c : UInt8) : Text := if charEscaping c then writeEscapeSeq c else [c]

/-- `json_write_string` -/
def jsonWriteString (str : Text) : Text := 34 :: (str.flatMap jsonWriteChar ++ [34])

/-- `json_read_alloc_string`: the string, which can be `NULL`, and what follows. -/
def jsonReadAllocString (text : Text) : Option (Option Text × Text) :=
  match text.dropWhile isSpace with
  | 110 :: 117 :: 108 :: 108 :: rest => some (none, rest)
  | 34 :: rest =>
    match readChars (rest.length + 1) [] rest with
    | ⟨written, some rest⟩ => some (some (cString written), rest)
    | ⟨_, none⟩ => none
  | _ => none

variable {n : Nat}

theorem readHexDigit_hexDigit (h : n < 16) (rest : Text) :
    readHexDigit (hexDigit n :: rest) = some (n, rest) := by
  have hAll : ∀ m : Fin 16, readHexDigit [hexDigit m] = some (m.val, []) := by decide
  have hOne := hAll ⟨n, h⟩
  simp only [readHexDigit] at hOne ⊢
  split_ifs at hOne ⊢
  all_goals simp_all

variable {c : UInt8}

theorem utf8_of_lt (h : c.toNat < 128) : utf8 c.toNat = [c] := by
  unfold utf8
  rw [if_pos (by omega)]
  simp

theorem readEscChar_hex (text : Text) :
    readEscChar (117 :: text) = (readHexChar text).map fun (ch, rest) => (utf8 ch, rest) := rfl

/-- Every escape sequence is read as the character it stands for. -/
theorem readEscChar_escape (h : charEscaping c = true) (rest : Text) :
    ∃ seq, writeEscapeSeq c = 92 :: seq ∧ readEscChar (seq ++ rest) = some ([c], rest) := by
  unfold writeEscapeSeq
  split_ifs with h0 h1 h2 h3 h4 h5
  · refine ⟨[c], rfl, ?_⟩
    rcases h0 with rfl | rfl <;> rfl
  · exact ⟨[98], rfl, h1 ▸ rfl⟩
  · exact ⟨[102], rfl, h2 ▸ rfl⟩
  · exact ⟨[110], rfl, h3 ▸ rfl⟩
  · exact ⟨[114], rfl, h4 ▸ rfl⟩
  · exact ⟨[116], rfl, h5 ▸ rfl⟩
  · have hLt : c.toNat < 128 := by
      simp only [charEscaping, Bool.or_eq_true, decide_eq_true_eq] at h
      rcases h with ((h | h) | h) | h
      · exact Nat.lt_trans (UInt8.lt_iff_toNat_lt.1 h) (by decide)
      · rw [h]
        decide
      · rw [h]
        decide
      · rw [h]
        decide
    refine ⟨_, rfl, ?_⟩
    have hZero : ∀ rest, readHexDigit (48 :: rest) = some (0, rest) := fun _ => rfl
    have hSum : 0 * 0x1000 + 0 * 0x100 + c.toNat / 16 * 0x10 + c.toNat % 16 = c.toNat := by omega
    have hHex :
      readHexChar (48 :: 48 :: hexDigit (c.toNat / 16) :: hexDigit (c.toNat % 16) :: rest) =
        some (c.toNat, rest) := by
      simp only [readHexChar, hZero, readHexDigit_hexDigit (show c.toNat / 16 < 16 by omega),
        readHexDigit_hexDigit (show c.toNat % 16 < 16 by omega), Option.bind_eq_bind,
        Option.bind_some, hSum]
    rw [List.cons_append, readEscChar_hex]
    simp only [List.cons_append, List.nil_append, hHex, Option.map_some, utf8_of_lt hLt]

theorem readChars_writeChar (c : UInt8) (fuel : Nat) (written rest : Text) :
    readChars (fuel + 1) written (jsonWriteChar c ++ rest) =
      readChars fuel (written ++ [c]) rest := by
  unfold jsonWriteChar
  split
  · rename_i hEscape
    obtain ⟨seq, hSeq, hRead⟩ := readEscChar_escape hEscape rest
    rw [hSeq, List.cons_append, readChars, if_neg (by decide), if_pos rfl, hRead]
  · rename_i hPlain
    have hQuote : c ≠ 34 := by
      rintro rfl
      exact hPlain rfl
    have hSlash : c ≠ 92 := by
      rintro rfl
      exact hPlain rfl
    rw [List.cons_append, List.nil_append, readChars, if_neg hQuote, if_neg hSlash]

theorem readChars_write (str : Text) {fuel : Nat} (hFuel : str.length < fuel)
    (written rest : Text) :
    readChars fuel written (str.flatMap jsonWriteChar ++ 34 :: rest) =
      ⟨written ++ str, some rest⟩ := by
  induction str generalizing fuel written with
  | nil =>
    obtain ⟨fuel, rfl⟩ : ∃ m, fuel = m + 1 := ⟨fuel - 1, by simp at hFuel; omega⟩
    rw [List.flatMap_nil, List.nil_append, readChars, if_pos rfl, List.append_nil]
  | cons c str ih =>
    obtain ⟨fuel, rfl⟩ : ∃ m, fuel = m + 1 := ⟨fuel - 1, by simp at hFuel; omega⟩
    have hRest : str.length < fuel := by simpa using hFuel
    rw [List.flatMap_cons, List.append_assoc, readChars_writeChar, ih hRest, List.append_assoc]
    rfl

theorem length_le_write (str : Text) : str.length ≤ (str.flatMap jsonWriteChar).length := by
  induction str with
  | nil => simp
  | cons c str ih =>
    have hPos : 0 < (jsonWriteChar c).length := by
      unfold jsonWriteChar writeEscapeSeq
      split_ifs <;> simp
    rw [List.flatMap_cons, List.length_append, List.length_cons]
    omega

theorem readChars_jsonWriteString (str rest : Text) :
    readChars ((str.flatMap jsonWriteChar ++ 34 :: rest).length + 1) []
      (str.flatMap jsonWriteChar ++ 34 :: rest) = ⟨str, some rest⟩ := by
  have hLe := length_le_write str
  have hFuel : str.length < (str.flatMap jsonWriteChar ++ 34 :: rest).length + 1 := by
    rw [List.length_append]
    omega
  simpa using readChars_write str hFuel [] rest

/-- `json_read_string` stores what was written. -/
theorem jsonReadString_write (str rest : Text) :
    jsonReadString (jsonWriteString str ++ rest) = ⟨str, some rest⟩ := by
  have h := readChars_jsonWriteString str rest
  unfold jsonReadString jsonWriteString
  rw [List.cons_append, List.append_assoc]
  exact h

theorem cString_of_noZero {str : Text} (h : 0 ∉ str) : cString str = str := by
  unfold cString
  induction str with
  | nil => rfl
  | cons c str ih =>
    have hFirst : c ≠ 0 := by
      rintro rfl
      exact h List.mem_cons_self
    rw [List.takeWhile_cons_of_pos (by simpa using hFirst),
      ih fun hMem => h (List.mem_cons_of_mem _ hMem)]

/-- `json_read_alloc_string` returns what was written. -/
theorem jsonReadAllocString_write {str : Text} (hStr : 0 ∉ str) (rest : Text) :
    jsonReadAllocString (jsonWriteString str ++ rest) = some (some str, rest) := by
  have h := readChars_jsonWriteString str rest
  unfold jsonReadAllocString jsonWriteString
  rw [List.cons_append, List.append_assoc]
  show (match readChars ((str.flatMap jsonWriteChar ++ 34 :: rest).length + 1) []
      (str.flatMap jsonWriteChar ++ 34 :: rest) with
    | ⟨written, some rest⟩ => some (some (cString written), rest)
    | ⟨_, none⟩ => none) = _
  rw [h]
  simp only [cString_of_noZero hStr]

/-! ## Numbers -/

def isDigit (c : UInt8) : Bool := 48 ≤ c && c ≤ 57

/-- The number that decimal digits spell. -/
def digitsValue (t : Text) : Nat := t.foldl (fun n c => n * 10 + (c.toNat - 48)) 0

/-- `json_write_ulong`, `json_write_uint64`: the digits of a number. -/
def decimalAux : (fuel : Nat) → Nat → Text
  | 0, n => [UInt8.ofNat (48 + n % 10)]
  | fuel + 1, n =>
    if n < 10 then [UInt8.ofNat (48 + n)]
    else decimalAux fuel (n / 10) ++ [UInt8.ofNat (48 + n % 10)]

def decimal (n : Nat) : Text := decimalAux n n

/-- `json_write_long` -/
def jsonWriteLong (n : Int) : Text :=
  if n < 0 then 45 :: decimal n.natAbs else decimal n.natAbs

/-- What follows an optional minus sign, and whether there is one. -/
def readSign : Text → Bool × Text
  | [] => (false, [])
  | c :: text => if c = 45 then (true, text) else (false, c :: text)

/-- A sign, digits and what follows. -/
def readNumber (text : Text) : Option (Bool × Nat × Text) :=
  let (neg, text) := readSign (text.dropWhile isSpace)
  match text with
  | c :: _ =>
    if isDigit c then some (neg, digitsValue (text.takeWhile isDigit), text.dropWhile isDigit)
    else none
  | [] => none

/-- `json_read_long` -/
def jsonReadLong (text : Text) : Option (Int × Text) :=
  (readNumber text).map fun (neg, n, rest) =>
    (Int.bmod (if neg then -(n : Int) else n) (2 ^ 64), rest)

/-- `json_read_uint64` -/
def jsonReadUint64 (text : Text) : Option (Nat × Text) :=
  (readNumber text).map fun (neg, n, rest) =>
    ((if neg then 2 ^ 64 - n % 2 ^ 64 else n) % 2 ^ 64, rest)

theorem isDigit_ofNat (h : n < 10) : isDigit (UInt8.ofNat (48 + n)) = true := by
  have hAll : ∀ m : Fin 10, isDigit (UInt8.ofNat (48 + m)) = true := by decide
  exact hAll ⟨n, h⟩

theorem toNat_ofNat_digit (h : n < 10) : (UInt8.ofNat (48 + n)).toNat - 48 = n := by
  simp
  omega

theorem digitsValue_append (t : Text) (c : UInt8) :
    digitsValue (t ++ [c]) = digitsValue t * 10 + (c.toNat - 48) := by
  unfold digitsValue
  rw [List.foldl_append]
  rfl

theorem decimalAux_spec {fuel n : Nat} (h : n ≤ fuel) :
    (∀ c ∈ decimalAux fuel n, isDigit c = true) ∧ decimalAux fuel n ≠ [] ∧
      digitsValue (decimalAux fuel n) = n := by
  induction fuel generalizing n with
  | zero =>
    obtain rfl : n = 0 := by omega
    refine ⟨fun c hc => ?_, by decide, by decide⟩
    obtain rfl := List.mem_singleton.1 hc
    exact isDigit_ofNat (by decide)
  | succ fuel ih =>
    unfold decimalAux
    split
    · rename_i hLt
      refine ⟨fun c hc => ?_, by simp, ?_⟩
      · obtain rfl := List.mem_singleton.1 hc
        exact isDigit_ofNat hLt
      · have hDigit := toNat_ofNat_digit hLt
        simpa [digitsValue] using hDigit
    · obtain ⟨hDigits, -, hValue⟩ := ih (n := n / 10) (by omega)
      have hLast : n % 10 < 10 := Nat.mod_lt _ (by decide)
      refine ⟨fun c hc => ?_, by simp, ?_⟩
      · rcases List.mem_append.1 hc with hc | hc
        · exact hDigits c hc
        · obtain rfl := List.mem_singleton.1 hc
          exact isDigit_ofNat hLast
      · rw [digitsValue_append, hValue, toNat_ofNat_digit hLast]
        omega

/-- The text does not go on with a digit. -/
def NoDigit (rest : Text) : Prop := ∀ c ∈ rest.head?, isDigit c = false

theorem noDigit_cons (h : isDigit c = false) (rest : Text) : NoDigit (c :: rest) := by
  intro d hd
  cases hd
  exact h

theorem takeWhile_digits {t rest : Text} (ht : ∀ c ∈ t, isDigit c = true) (hRest : NoDigit rest) :
    (t ++ rest).takeWhile isDigit = t ∧ (t ++ rest).dropWhile isDigit = rest := by
  rw [List.takeWhile_append_of_pos ht, List.dropWhile_append_of_pos ht]
  cases rest with
  | nil => simp
  | cons c rest =>
    have hc : isDigit c = false := hRest c rfl
    simp [hc]

theorem isSpace_of_isDigit (h : isDigit c = true) : isSpace c = false ∧ c ≠ 45 := by
  have hAll : ∀ m : Fin 256, isDigit (UInt8.ofNat m) = true →
      isSpace (UInt8.ofNat m) = false ∧ UInt8.ofNat m ≠ 45 := by decide +kernel
  have hOne := hAll ⟨c.toNat, c.toNat_lt⟩
  simp only [UInt8.ofNat_toNat] at hOne
  exact hOne h

variable {rest : Text}

theorem readNumber_decimal (n : Nat) (hRest : NoDigit rest) :
    readNumber (decimal n ++ rest) = some (false, n, rest) := by
  obtain ⟨hDigits, hSome, hValue⟩ := decimalAux_spec (Nat.le_refl n)
  obtain ⟨hTake, hDrop⟩ := takeWhile_digits hDigits hRest
  unfold decimal
  cases hText : decimalAux n n with
  | nil => exact absurd hText hSome
  | cons c t =>
    have hc : isDigit c = true := hDigits c (by rw [hText]; exact List.mem_cons_self)
    obtain ⟨hSpace, hMinus⟩ := isSpace_of_isDigit hc
    have hSkip : (c :: t ++ rest).dropWhile isSpace = c :: (t ++ rest) := by
      rw [List.cons_append, List.dropWhile_cons_of_neg (by simp [hSpace])]
    rw [hText] at hTake hDrop hValue
    rw [List.cons_append] at hTake hDrop
    unfold readNumber
    simp only [hSkip, readSign, if_neg hMinus, hc, ↓reduceIte, hTake, hDrop, hValue]

/-- `json_read_uint64` returns the number that was written. -/
theorem jsonReadUint64_write (hn : n < 2 ^ 64) (hRest : NoDigit rest) :
    jsonReadUint64 (decimal n ++ rest) = some (n, rest) := by
  unfold jsonReadUint64
  rw [readNumber_decimal n hRest]
  show some (n % 2 ^ 64, rest) = some (n, rest)
  rw [Nat.mod_eq_of_lt hn]

/-- `json_read_long` returns the number that was written, when it is not negative. -/
theorem jsonReadLong_write (hn : n < 2 ^ 63) (hRest : NoDigit rest) :
    jsonReadLong (jsonWriteLong n ++ rest) = some ((n : Int), rest) := by
  have hWrite : jsonWriteLong n = decimal n := by
    unfold jsonWriteLong
    rw [if_neg (by omega), Int.natAbs_natCast]
  have hMod : Int.bmod (n : Int) (2 ^ 64) = n := Int.bmod_eq_of_le (by omega) (by omega)
  unfold jsonReadLong
  rw [hWrite, readNumber_decimal n hRest]
  simp only [Option.map_some, Bool.false_eq_true, ↓reduceIte, hMod]

/-! ## Other characters -/

/-- `json_test_char`; white space is skipped in front of `:`, `,`, a bracket or the end. -/
def jsonTestChar (text : Text) (x : UInt8) : Option Text :=
  match (if x ∈ [58, 44, 123, 125, 91, 93, 0] then text.dropWhile isSpace else text) with
  | c :: rest => if c = x then some rest else none
  | [] => none

/-- The loop of `json_read_array`; every element takes something of the text. -/
def readElements {α : Type} (callBack : Text → Option (α × Text)) :
    (fuel : Nat) → Text → Option (List α × Text)
  | 0, _ => none
  | fuel + 1, text => do
    let (a, rest) ← callBack text
    match rest.dropWhile isSpace with
    | 44 :: rest => do
      let (as, rest) ← readElements callBack fuel rest
      some (a :: as, rest)
    | 93 :: rest => some ([a], rest)
    | _ => none

/-- `json_read_array` -/
def jsonReadArray {α : Type} (callBack : Text → Option (α × Text)) (text : Text) :
    Option (List α × Text) :=
  match text.dropWhile isSpace with
  | 110 :: 117 :: 108 :: 108 :: rest => some ([], rest)
  | 91 :: rest =>
    match rest.dropWhile isSpace with
    | 93 :: rest => some ([], rest)
    | _ => readElements callBack rest.length rest
  | _ => none

end TcfAgent.JsonText
