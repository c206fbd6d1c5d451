import Mathlib
import TcfAgent.Framework.JsonText
import TcfAgent.Lib.Checked

/-!
# JSON strings in memory

`framework/json.c`: the writers of strings and the three readers, with the memory they store to: a
buffer of the caller, `tmp_buf`, which grows, and `len_buf`, which grows until its size of 32 bits
wraps. A store outside of a buffer is a fault.

The loop over the characters of a string is the same in all readers, up to where it puts a byte.

Main results

* `readLiteral_eq`          — the loop puts what the string stands for, in order
* `jsonReadAllocString_eq`  — what is stored in `tmp_buf`
* `jsonReadAllocString_refines` — it agrees with the reader without a buffer
* `StrBuf.Holds.foldlM`     — what is stored in a buffer of the caller
-/

namespace TcfAgent.JsonBuffers

open TcfAgent.Lib TcfAgent.JsonString TcfAgent.JsonText

/-- What an exception is raised with: `ERR_JSON_SYNTAX`, `ERR_PROTOCOL` or `ERR_BASE64`. -/
inductive Failure where
  | jsonSyntax
  | protocol
  | base64
deriving DecidableEq, Repr

abbrev Result (α : Type) : Type := Except (Stop Failure) α

/-- An unsigned number of 32 bits. -/
def u32 (n : Nat) : Nat := n % 2 ^ 32

/-! ## Writers -/

/-- `write_block` of a run, whose length is a number of 32 bits. -/
def writeRun (run : Text) : Text := run.take (u32 run.length)

/-- The loop of `json_write_string_len`: `run` is what stands between `ptr` and `str`. -/
def writeChars (run : Text) : Text → Text
  | [] => writeRun run
  | c :: str =>
    if charEscaping c then writeRun run ++ writeEscapeSeq c ++ writeChars [] str
    else writeChars (run ++ [c]) str

/-- `json_write_string_len` -/
def jsonWriteStringLen : Option Text → Text
  | none => ascii "null"
  | some str => 34 :: (writeChars [] str ++ [34])

/-- `json_write_string`, of what is in memory up to the first zero byte. -/
def jsonWriteString (str : Option Text) : Text := jsonWriteStringLen (str.map cString)

/-! ## Buffers -/

/-- `MEM_HEAP_LINK_SIZE` -/
def memHeapLinkSize : Nat := 0x10

/-- `tmp_buf_size` and the first `tmp_buf_pos` bytes of `tmp_buf`, which is `NULL` when the size
is 0. -/
structure TmpBuf where
  size  : Nat
  bytes : List UInt8
deriving DecidableEq, Repr

/-- `realloc_tmp_buf` -/
def TmpBuf.realloc (b : TmpBuf) : TmpBuf :=
  { b with size := if b.size = 0 then 0x1000 - memHeapLinkSize else b.size * 2 + memHeapLinkSize }

/-- `tmp_buf_add` -/
def TmpBuf.add (b : TmpBuf) (ch : UInt8) : Result TmpBuf :=
  let b := if b.size ≤ b.bytes.length then b.realloc else b
  if b.bytes.length < b.size then .ok { b with bytes := b.bytes ++ [ch] } else .error .fault

/-- `tmp_buf_pos = 0` -/
def TmpBuf.reset (b : TmpBuf) : TmpBuf := { b with bytes := [] }

/-- A store to a buffer of the caller. -/
def storeAt (str : List UInt8) (i : Nat) (ch : UInt8) : Result (List UInt8) :=
  if i < str.length then .ok (str.set i ch) else .error .fault

/-- `size - 1`, of a `size_t`. -/
def sizeLast (size : Nat) : Nat := (size + (2 ^ 64 - 1)) % 2 ^ 64

/-- The buffer of `json_read_string` and `i`. -/
structure StrBuf where
  str : List UInt8
  i   : Nat
deriving DecidableEq, Repr

/-- `if (i < size - 1) str[i] = ch; i++` -/
def StrBuf.put (size : Nat) (b : StrBuf) (ch : UInt8) : Result StrBuf :=
  if b.i < sizeLast size then do return ⟨← storeAt b.str b.i ch, u32 (b.i + 1)⟩
  else return ⟨b.str, u32 (b.i + 1)⟩

/-- `if (i < size) str[i] = 0; else str[size - 1] = 0` -/
def StrBuf.terminate (size : Nat) (b : StrBuf) : Result (List UInt8) :=
  if b.i < size then storeAt b.str b.i 0 else storeAt b.str (sizeLast size) 0

/-- `len_buf_size`: a power of two, as long as it does not wrap. -/
structure LenBuf where
  size : Nat
  hSize : size = 0 ∨ ∃ k, 8 ≤ k ∧ k ≤ 31 ∧ size = 2 ^ k

/-- `len_buf_size = len_buf_size == 0 ? 0x100 : len_buf_size * 2` -/
def LenBuf.grow (lens : LenBuf) : LenBuf where
  size := if lens.size = 0 then 0x100 else u32 (lens.size * 2)
  hSize := by
    split
    · exact Or.inr ⟨8, by decide, by decide, rfl⟩
    · rename_i hPos
      obtain ⟨k, h8, h31, hSize⟩ := lens.hSize.resolve_left hPos
      rw [hSize, ← pow_succ]
      rcases Nat.lt_or_eq_of_le h31 with hLt | rfl
      · refine Or.inr ⟨k + 1, by omega, by omega, Nat.mod_eq_of_lt ?_⟩
        exact Nat.pow_lt_pow_right (by decide) (by omega)
      · exact Or.inl rfl

/-! ## Readers -/

/-- `json_test_char` of the letters behind the first one of `null`. -/
def readNull : Text → Result Text
  | 117 :: 108 :: 108 :: rest => .ok rest
  | _ => .error (.raise .jsonSyntax)

/-- The loop over the characters of a string; the text is shorter than the number of rounds. -/
def readLiteral {σ : Type} (put : σ → UInt8 → Result σ) :
    (fuel : Nat) → σ → Text → Result (σ × Text)
  | 0, _, _ => .error (.raise .jsonSyntax)
  | _ + 1, _, [] => .error (.raise .jsonSyntax)
  | fuel + 1, b, ch :: rest =>
    if ch = 34 then .ok (b, rest)
    else if ch = 92 then
      match readEscChar rest with
      | none => .error (.raise .jsonSyntax)
      | some (utf8, rest) => do readLiteral put fuel (← utf8.foldlM put b) rest
    else do readLiteral put fuel (← put b ch) rest

/-- `json_read_string`: the value that is returned, the buffer and what follows in the text. -/
def jsonReadString (str : List UInt8) (size : Nat) (text : Text) :
    Result (Int × List UInt8 × Text) :=
  match text.dropWhile isSpace with
  | 110 :: rest => do
    let rest ← readNull rest
    return (-1, ← storeAt str 0 0, rest)
  | 34 :: rest => do
    let (b, rest) ← readLiteral (StrBuf.put size) (rest.length + 1) ⟨str, 0⟩ rest
    let str ← b.terminate size
    return (Int.bmod b.i (2 ^ 32), str, rest)
  | _ => .error (.raise .protocol)

/-- `json_read_alloc_string`: the block that is allocated, which can be `NULL`. -/
def jsonReadAllocString (b : TmpBuf) (text : Text) :
    Result (Option (List UInt8) × TmpBuf × Text) :=
  match text.dropWhile isSpace with
  | 110 :: rest => do return (none, b, ← readNull rest)
  | 34 :: rest => do
    let (b, rest) ← readLiteral TmpBuf.add (rest.length + 1) b.reset rest
    let b ← b.add 0
    return (some b.bytes, b, rest)
  | _ => .error (.raise .protocol)

/-- An element of an array: its length. -/
def readElement (b : TmpBuf) (text : Text) : Result (Nat × TmpBuf × Text) :=
  match text.dropWhile isSpace with
  | 110 :: rest => do return (0, b, ← readNull rest)
  | 34 :: rest => do
    let (b', rest) ← readLiteral TmpBuf.add (rest.length + 1) b rest
    return (b'.bytes.length - b.bytes.length, b', rest)
  | _ => .error (.raise .protocol)

/-- `len_buf` with the first `len_pos` lengths, `tmp_buf` and the text. -/
structure ArrayState where
  lens    : LenBuf
  lengths : List Nat
  tmp     : TmpBuf
  text    : Text

/-- `if (len_pos >= len_buf_size)` -/
def LenBuf.reserve (lens : LenBuf) (lenPos : Nat) : LenBuf :=
  if lens.size ≤ lenPos then lens.grow else lens

/-- A round of the loop over the elements, up to the character behind the element. -/
def ArrayState.round (s : ArrayState) : Result ArrayState := do
  let lens := s.lens.reserve s.lengths.length
  let (len, tmp, text) ← readElement s.tmp s.text
  let tmp ← tmp.add 0
  if s.lengths.length < lens.size then return ⟨lens, s.lengths ++ [len], tmp,
    text.dropWhile isSpace⟩
  else .error .fault

/-- The loop over the elements; every element takes something of the text. -/
def readStrings : (fuel : Nat) → ArrayState → Result ArrayState
  | 0, _ => .error (.raise .jsonSyntax)
  | fuel + 1, s => do
    let s ← s.round
    match s.text with
    | 44 :: rest => readStrings fuel { s with text := rest }
    | 93 :: rest => return { s with text := rest }
    | _ => .error (.raise .jsonSyntax)

/-- The characters and where in them the strings begin. -/
structure StringArray where
  str : List UInt8
  arr : List Nat
deriving DecidableEq, Repr

/-- The loop that sets `arr`: `j` is where the next string begins. -/
def stringStarts (j : Nat) : List Nat → List Nat
  | [] => []
  | len :: lengths => j :: stringStarts (j + (len + 1)) lengths

def ArrayState.finish (s : ArrayState) : Result (Option StringArray × ArrayState) := do
  let tmp ← s.tmp.add 0
  return (some ⟨tmp.bytes, stringStarts 0 s.lengths⟩, { s with tmp })

/-- `json_read_alloc_string_array` -/
def jsonReadAllocStringArray (lens : LenBuf) (b : TmpBuf) (text : Text) :
    Result (Option StringArray × ArrayState) :=
  match text.dropWhile isSpace with
  | 110 :: rest => do return (none, ⟨lens, [], b, ← readNull rest⟩)
  | 91 :: rest =>
    match rest.dropWhile isSpace with
    | 93 :: rest => ArrayState.finish ⟨lens, [], b.reset, rest⟩
    | rest => do (← readStrings (rest.length + 1) ⟨lens, [], b.reset, rest⟩).finish
  | _ => .error (.raise .protocol)

/-! ## The loop over the characters -/

/-- What has been read before is kept. -/
theorem readChars_written (fuel : Nat) (written text : Text) :
    readChars fuel written text =
      ⟨written ++ (readChars fuel [] text).written, (readChars fuel [] text).rest⟩ := by
  induction fuel generalizing written text with
  | zero => simp [readChars]
  | succ fuel ih =>
    cases text with
    | nil => simp [readChars]
    | cons c text =>
      rw [readChars, readChars]
      by_cases hQuote : c = 34
      · simp [hQuote]
      · rw [if_neg hQuote, if_neg hQuote]
        by_cases hSlash : c = 92
        · rw [if_pos hSlash, if_pos hSlash]
          cases readEscChar text with
          | none => simp
          | some r =>
            simp only
            rw [ih (written ++ r.1), ih ([] ++ r.1)]
            simp
        · rw [if_neg hSlash, if_neg hSlash, ih (written ++ [c]), ih ([] ++ [c])]
          simp

section

variable {σ : Type} {put : σ → UInt8 → Result σ} {b : σ} {text rest w : Text}

/-- The bytes of a string are put one after another. -/
theorem readLiteral_eq (fuel : Nat) (h : readChars fuel [] text = ⟨w, some rest⟩) :
    readLiteral put fuel b text = w.foldlM put b >>= fun b => .ok (b, rest) := by
  induction fuel generalizing b text w with
  | zero => simp [readChars] at h
  | succ fuel ih =>
    cases text with
    | nil => simp [readChars] at h
    | cons c text =>
      rw [readChars] at h
      rw [readLiteral]
      by_cases hQuote : c = 34
      · rw [if_pos hQuote] at h ⊢
        cases h
        rfl
      · rw [if_neg hQuote] at h ⊢
        by_cases hSlash : c = 92
        · rw [if_pos hSlash] at h ⊢
          cases hEsc : readEscChar text with
          | none => simp [hEsc] at h
          | some r =>
            simp only [hEsc] at h ⊢
            rw [readChars_written] at h
            obtain ⟨hWritten, hRest⟩ := StringRead.mk.inj h
            rw [← hWritten, List.nil_append, List.foldlM_append]
            cases r.1.foldlM put b with
            | error e => rfl
            | ok b' => exact ih (by rw [← hRest])
        · rw [if_neg hSlash] at h ⊢
          rw [readChars_written] at h
          obtain ⟨hWritten, hRest⟩ := StringRead.mk.inj h
          rw [← hWritten, List.nil_append, List.singleton_append, List.foldlM_cons]
          cases put b c with
          | error e => rfl
          | ok b' => exact ih (by rw [← hRest])

end

/-! ## Stores -/

/-- `tmp_buf_pos <= tmp_buf_size` -/
def TmpBuf.Fits (b : TmpBuf) : Prop := b.bytes.length ≤ b.size

section

variable {b : TmpBuf} {w : Text}

/-- There is room in `tmp_buf` for one more byte. -/
theorem TmpBuf.Fits.room (h : b.Fits) :
    ∃ n, (if b.size ≤ b.bytes.length then b.realloc else b) = ⟨n, b.bytes⟩ ∧
      b.bytes.length < n := by
  obtain ⟨size, bytes⟩ := b
  have hFits : bytes.length ≤ size := h
  dsimp only
  by_cases hFull : size ≤ bytes.length
  · rw [if_pos hFull]
    refine ⟨_, rfl, ?_⟩
    simp only [memHeapLinkSize]
    split <;> omega
  · rw [if_neg hFull]
    exact ⟨size, rfl, by omega⟩

theorem TmpBuf.Fits.add (h : b.Fits) (ch : UInt8) :
    ∃ b', b.add ch = .ok b' ∧ b'.bytes = b.bytes ++ [ch] ∧ b'.Fits := by
  obtain ⟨n, hSame, hLt⟩ := h.room
  refine ⟨⟨n, b.bytes ++ [ch]⟩, ?_, rfl, ?_⟩
  · unfold TmpBuf.add
    simp only [hSame]
    exact if_pos hLt
  · show (b.bytes ++ [ch]).length ≤ n
    rw [List.length_append]
    exact hLt

theorem TmpBuf.Fits.foldlM (h : b.Fits) (w : Text) :
    ∃ b', w.foldlM TmpBuf.add b = .ok b' ∧ b'.bytes = b.bytes ++ w ∧ b'.Fits := by
  induction w generalizing b with
  | nil => exact ⟨b, rfl, by simp, h⟩
  | cons c w ih =>
    obtain ⟨b₁, hAdd, hBytes, hFits⟩ := h.add c
    obtain ⟨b₂, hRest, hBytes', hFits'⟩ := ih hFits
    refine ⟨b₂, ?_, by rw [hBytes', hBytes, List.append_assoc]; rfl, hFits'⟩
    rw [List.foldlM_cons, hAdd]
    exact hRest

theorem fits_reset (b : TmpBuf) : b.reset.Fits := Nat.zero_le _

end

/-- `json_read_alloc_string` of a string. -/
theorem jsonReadAllocString_eq (b : TmpBuf) {text tail w rest : Text}
    (hText : text.dropWhile isSpace = 34 :: tail)
    (hChars : readChars (tail.length + 1) [] tail = ⟨w, some rest⟩) :
    ∃ b', jsonReadAllocString b text = .ok (some (w ++ [0]), b', rest) := by
  obtain ⟨b₁, hFold, hBytes₁, hFits₁⟩ := (fits_reset b).foldlM w
  obtain ⟨b₂, hAdd, hBytes₂, -⟩ := hFits₁.add 0
  refine ⟨b₂, ?_⟩
  unfold jsonReadAllocString
  rw [hText]
  simp only [readLiteral_eq _ hChars, hFold]
  show (b₁.add 0 >>= _) = _
  rw [hAdd]
  show Except.ok (some b₂.bytes, b₂, rest) = _
  rw [hBytes₂, hBytes₁]
  rfl

/-- The reader with its buffer agrees with the one that has none, wherever that one succeeds. -/
theorem jsonReadAllocString_refines (b : TmpBuf) {text rest : Text} {s : Option Text}
    (h : JsonText.jsonReadAllocString text = some (s, rest)) :
    ∃ str b', jsonReadAllocString b text = .ok (str, b', rest) ∧ str.map cString = s := by
  unfold JsonText.jsonReadAllocString at h
  split at h
  · next tail hText =>
    cases h
    refine ⟨none, b, ?_, rfl⟩
    unfold jsonReadAllocString
    rw [hText]
    rfl
  · next tail hText =>
    split at h
    · next w rest' hChars =>
      cases h
      obtain ⟨b', hRead⟩ := jsonReadAllocString_eq b hText hChars
      refine ⟨some (w ++ [0]), b', hRead, congrArg some ?_⟩
      -- The zero at the end belongs to the block and not to the string.
      unfold cString
      rw [List.takeWhile_append]
      split
      · next hAll =>
        rw [(List.takeWhile_prefix _).eq_of_length hAll]
        exact List.append_nil w
      · rfl
    · cases h
  · cases h

section

variable {str str' : List UInt8} {n : Nat} {p w : Text}

theorem sizeLast_eq (hn : 0 < n) (hLt : n < 2 ^ 64) : sizeLast n = n - 1 := by
  have hSum : n + (2 ^ 64 - 1) = (n - 1) + 2 ^ 64 := by omega
  rw [sizeLast, hSum, Nat.add_mod_right, Nat.mod_eq_of_lt (by omega)]

/-- A byte that is stored behind a prefix. -/
theorem storeAt_prefix (hPrefix : p <+: str) (hLt : p.length < str.length) (c : UInt8) :
    ∃ str', storeAt str p.length c = .ok str' ∧ p ++ [c] <+: str' ∧ str'.length = str.length := by
  obtain ⟨t, rfl⟩ := hPrefix
  cases t with
  | nil => simp at hLt
  | cons d t =>
    refine ⟨p ++ c :: t, ?_, ⟨t, by simp⟩, by simp⟩
    rw [storeAt, if_pos hLt, List.set_append_right _ _ (Nat.le_refl _), Nat.sub_self,
      List.set_cons_zero]

/-- The buffer holds what has been read of a string, as far as it fits. -/
structure StrBuf.Holds (n : Nat) (p : Text) (b : StrBuf) : Prop where
  index  : b.i = p.length
  length : b.str.length = n
  stored : p.take (n - 1) <+: b.str

theorem StrBuf.Holds.put {b : StrBuf} (h : b.Holds n p) (hn : 0 < n) (hLt : n < 2 ^ 64)
    (hp : p.length + 1 < 2 ^ 32) (c : UInt8) :
    ∃ b', b.put n c = .ok b' ∧ b'.Holds n (p ++ [c]) := by
  have hNext : u32 (b.i + 1) = (p ++ [c]).length := by
    rw [h.index, List.length_append, List.length_singleton]
    exact Nat.mod_eq_of_lt hp
  unfold StrBuf.put
  rw [sizeLast_eq hn hLt, hNext]
  by_cases hRoom : b.i < n - 1
  · rw [if_pos hRoom]
    rw [h.index] at hRoom
    have hAll : p.take (n - 1) = p := List.take_of_length_le (by omega)
    have hStored := h.stored
    rw [hAll] at hStored
    obtain ⟨str', hStore, hPrefix, hLength⟩ :=
      storeAt_prefix hStored (by rw [h.length]; omega) c
    refine ⟨⟨str', (p ++ [c]).length⟩, ?_, rfl, hLength.trans h.length, ?_⟩
    · rw [h.index, hStore]
      rfl
    · rwa [List.take_of_length_le (by rw [List.length_append, List.length_singleton]; omega)]
  · rw [if_neg hRoom]
    rw [h.index] at hRoom
    refine ⟨⟨b.str, (p ++ [c]).length⟩, rfl, rfl, h.length, ?_⟩
    rw [List.take_append_of_le_length (by omega)]
    exact h.stored

theorem StrBuf.Holds.foldlM {b : StrBuf} (h : b.Holds n p) (hn : 0 < n) (hLt : n < 2 ^ 64)
    (hw : p.length + w.length < 2 ^ 32) :
    ∃ b', w.foldlM (StrBuf.put n) b = .ok b' ∧ b'.Holds n (p ++ w) := by
  induction w generalizing b p with
  | nil => exact ⟨b, rfl, by rwa [List.append_nil]⟩
  | cons c w ih =>
    rw [List.length_cons] at hw
    obtain ⟨b₁, hPut, hHolds⟩ := h.put hn hLt (by omega) c
    obtain ⟨b₂, hRest, hHolds'⟩ := ih hHolds (by
      rw [List.length_append, List.length_singleton]
      omega)
    refine ⟨b₂, ?_, by rwa [List.append_assoc] at hHolds'⟩
    rw [List.foldlM_cons, hPut]
    exact hRest

end

end TcfAgent.JsonBuffers
