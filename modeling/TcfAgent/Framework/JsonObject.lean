import TcfAgent.Framework.JsonBinary
import TcfAgent.Framework.JsonUnicode

/-!
# JSON objects that are passed through

`framework/json.c`: `json_read_object` copies a value of any kind as a text. White space is left
out, and binary data become a string in BASE64, since the copy ends with a zero.

A text is given by its syntax tree, with the white space and the sizes of binary data as they are
written. `Skips` says of every part of it what `skip_object` and its loops do; there is one lemma
for each kind of part.

Main results

* `skips`            — every part is copied as its compact tree
* `Tree.compact_eq`  — a compact tree is copied as it is
* `read_object`      — the copy denotes the same value and is copied unchanged
-/

namespace TcfAgent.JsonObject

open TcfAgent.Lib TcfAgent.JsonString TcfAgent.JsonText TcfAgent.JsonBuffers

/-! ## Reading -/

/-- `tmp_buf` and the rest of the stream. -/
structure Skip where
  buf  : TmpBuf
  text : Text
deriving DecidableEq, Repr

/-- `skip_whitespace`, and the loop of `json_peek` -/
def skipWhitespace (s : Skip) : Skip := { s with text := s.text.dropWhile isSpace }

/-- `skip_char` -/
def skipChar (s : Skip) : Result (UInt8 × Skip) :=
  match s.text with
  | [] => .error (.raise .jsonSyntax)
  | ch :: text => do return (ch, ⟨← s.buf.add ch, text⟩)

/-- `check_char(skip_char(inp), x)` -/
def checkChar (s : Skip) (x : UInt8) : Result Skip := do
  let (ch, s) ← skipChar s
  if ch = x then return s else .error (.raise .jsonSyntax)

/-- The loop for a string; `escaped` after a backslash. -/
def skipString (escaped : Bool) (b : TmpBuf) : Text → Result Skip
  | [] => .error (.raise .jsonSyntax)
  | ch :: text => do
    let b ← b.add ch
    if escaped then skipString false b text
    else if ch = 34 then return ⟨b, text⟩
    else skipString (ch = 92) b text

/-- `.`, `e`, `E`, `-`, `+` and digits -/
def isNumberChar (ch : UInt8) : Bool :=
  isDigit ch || ch = 46 || ch = 101 || ch = 69 || ch = 45 || ch = 43

/-- The loop for a number. -/
def skipNumber (b : TmpBuf) : Text → Result Skip
  | ch :: text => if isNumberChar ch then do skipNumber (← b.add ch) text else .ok ⟨b, ch :: text⟩
  | [] => .ok ⟨b, []⟩

/-- The loop that makes room for `size` bytes; a round adds 16 of them or more. -/
def reserve (size : Nat) : (fuel : Nat) → TmpBuf → TmpBuf
  | 0, b => b
  | fuel + 1, b => if b.size < b.bytes.length + size then reserve size fuel b.realloc else b

/-- `memcpy` to the end of `tmp_buf`. -/
def appendBlock (b : TmpBuf) (block : Text) : Result TmpBuf :=
  let b := reserve block.length (b.bytes.length + block.length) b
  if b.bytes.length + block.length ≤ b.size then .ok { b with bytes := b.bytes ++ block }
  else .error .fault

/-- Binary data, behind `(`. -/
def skipBinary (s : Skip) : Result Skip := do
  let b := { s.buf with bytes := s.buf.bytes.dropLast }
  let (size, text) := readDigitsU 0 s.text
  let text ← testChar 41 text
  let (data, text) := readRaw size text
  return ⟨← appendBlock b (34 :: (writeBase64 data ++ [34])), text⟩

/-- The switch of `skip_object`, with its loops for arrays and objects. -/
def skipValue (elements members : Skip → Result Skip) (ch : UInt8) (s : Skip) : Result Skip :=
  if ch = 110 then (ascii "ull").foldlM checkChar s
  else if ch = 102 then (ascii "alse").foldlM checkChar s
  else if ch = 116 then (ascii "rue").foldlM checkChar s
  else if ch = 34 then skipString false s.buf s.text
  else if ch = 45 ∨ isDigit ch then skipNumber s.buf s.text
  else if ch = 91 then
    if (skipWhitespace s).text.head? = some 93 then checkChar (skipWhitespace s) 93
    else elements (skipWhitespace s)
  else if ch = 123 then
    if (skipWhitespace s).text.head? = some 125 then checkChar (skipWhitespace s) 125
    else members (skipWhitespace s)
  else if ch = 40 then skipBinary s
  else .error (.raise .jsonSyntax)

mutual

/-- `skip_object` -/
def skipObject : (fuel : Nat) → Skip → Result Skip
  | 0, _ => .error .fault
  | fuel + 1, s => do
    let (ch, s) ← skipChar (skipWhitespace s)
    skipValue (skipElements fuel) (skipMembers fuel) ch s

/-- The loop for an array. -/
def skipElements : (fuel : Nat) → Skip → Result Skip
  | 0, _ => .error .fault
  | fuel + 1, s => do
    let s ← skipObject fuel s
    let (ch, s) ← skipChar (skipWhitespace s)
    if ch = 44 then skipElements fuel s
    else if ch = 93 then return s
    else .error (.raise .jsonSyntax)

/-- The loop for an object. -/
def skipMembers : (fuel : Nat) → Skip → Result Skip
  | 0, _ => .error .fault
  | fuel + 1, s => do
    let s ← skipObject fuel s
    let s ← checkChar (skipWhitespace s) 58
    let s ← skipObject fuel s
    let (ch, s) ← skipChar (skipWhitespace s)
    if ch = 44 then skipMembers fuel s
    else if ch = 125 then return s
    else .error (.raise .jsonSyntax)

end

/-- `json_read_object`: the copy and what follows. An array or an object needs two calls for each
bracket, other values one. -/
def jsonReadObject (b : TmpBuf) (text : Text) : Result (List UInt8 × TmpBuf × Text) := do
  let s ← skipObject (2 * text.length + 2) ⟨b.reset, text⟩
  let b ← s.buf.add 0
  return (b.bytes, b, s.text)

/-! ## Texts -/

abbrev Spaces : Type := { ws : Text // ∀ c ∈ ws, isSpace c = true }

/-- `-` or a digit and what follows; the numbers of JSON are some of these. -/
structure Number where
  first   : UInt8
  more    : Text
  isFirst : first = 45 ∨ isDigit first = true
  isMore  : ∀ c ∈ more, isNumberChar c = true

/-- A part of a string: a byte as it is or an escape sequence. -/
inductive StringPart where
  | byte (c : UInt8) (h : c ≠ 34 ∧ c ≠ 92)
  | short (letter : UInt8) (n : Nat) (h : (letter, n) ∈ shortEscapes)
  | unit (h : Hex4)

def StringPart.text : StringPart → Text
  | .byte c _ => [c]
  | .short letter _ _ => [92, letter]
  | .unit h => 92 :: 117 :: h.text

/-- Binary data behind their size, which can begin with zeros. -/
structure Binary where
  digits  : Text
  data    : List UInt8
  isSize  : digits ≠ [] ∧ ∀ c ∈ digits, isDigit c = true
  hLength : digitsFrom 0 digits = data.length
  hLt     : data.length < 2 ^ 64

/-- An `item` is a value with the white space around it. -/
inductive Part where
  | value
  | item
  | elements
  | members

/-- A text with a value of JSON, or a part of one. A key can be any value, as in `skip_object`. -/
inductive Tree : Part → Type where
  | word (w : Option Bool) : Tree .value
  | number (n : Number) : Tree .value
  | string (s : List StringPart) : Tree .value
  | binary (d : Binary) : Tree .value
  | emptyArray (ws : Spaces) : Tree .value
  | array (es : Tree .elements) : Tree .value
  | emptyObject (ws : Spaces) : Tree .value
  | object (ms : Tree .members) : Tree .value
  | item (ws : Spaces) (v : Tree .value) (ws' : Spaces) : Tree .item
  | lastElement (i : Tree .item) : Tree .elements
  | element (i : Tree .item) (es : Tree .elements) : Tree .elements
  | lastMember (k v : Tree .item) : Tree .members
  | member (k v : Tree .item) (ms : Tree .members) : Tree .members

/-- `null` is `none`. -/
def wordText : Option Bool → Text
  | none => ascii "null"
  | some false => ascii "false"
  | some true => ascii "true"

/-- The text itself. -/
@[simp] def Tree.text : {p : Part} → Tree p → Text
  | _, .word w => wordText w
  | _, .number n => n.first :: n.more
  | _, .string s => 34 :: (s.flatMap StringPart.text ++ [34])
  | _, .binary d => 40 :: (d.digits ++ 41 :: d.data)
  | _, .emptyArray ws => 91 :: (ws.val ++ [93])
  | _, .array es => 91 :: (es.text ++ [93])
  | _, .emptyObject ws => 123 :: (ws.val ++ [125])
  | _, .object ms => 123 :: (ms.text ++ [125])
  | _, .item ws v ws' => ws.val ++ (v.text ++ ws'.val)
  | _, .lastElement i => i.text
  | _, .element i es => i.text ++ 44 :: es.text
  | _, .lastMember k v => k.text ++ 58 :: v.text
  | _, .member k v ms => k.text ++ 58 :: (v.text ++ 44 :: ms.text)

/-- What a part of a string denotes: a byte of UTF-8 or a unit of UTF-16. -/
inductive CodeUnit where
  | byte (c : UInt8)
  | code (n : Nat)
deriving DecidableEq, Repr

def StringPart.unit16 : StringPart → CodeUnit
  | .byte c _ => .byte c
  | .short _ n _ => .byte (UInt8.ofNat n)
  | .unit h => .code h.value

/-- The values of JSON. -/
inductive Value where
  | word (w : Option Bool)
  | number (t : Text)
  | string (s : List CodeUnit)
  | array (vs : List Value)
  | object (ms : List (Value × Value))

/-- What a part denotes. -/
def Part.Meaning : Part → Type
  | .value => Value
  | .item => Value
  | .elements => List Value
  | .members => List (Value × Value)

/-- What is denoted; binary data denote the string of their BASE64. -/
@[simp] def Tree.meaning : {p : Part} → Tree p → p.Meaning
  | _, .word w => Value.word w
  | _, .number n => Value.number (n.first :: n.more)
  | _, .string s => Value.string (s.map StringPart.unit16)
  | _, .binary d => Value.string ((base64 d.data).map .byte)
  | _, .emptyArray _ => Value.array []
  | _, .array es => Value.array es.meaning
  | _, .emptyObject _ => Value.object []
  | _, .object ms => Value.object ms.meaning
  | _, .item _ v _ => v.meaning
  | _, .lastElement i => [i.meaning]
  | _, .element i es => @List.cons Value i.meaning es.meaning
  | _, .lastMember k v => [((k.meaning : Value), (v.meaning : Value))]
  | _, .member k v ms => @List.cons (Value × Value) (k.meaning, v.meaning) ms.meaning

/-- There is no white space outside of strings and no binary data. -/
def Tree.IsCompact : {p : Part} → Tree p → Prop
  | _, .word _ => True
  | _, .number _ => True
  | _, .string _ => True
  | _, .binary _ => False
  | _, .emptyArray ws => ws.val = []
  | _, .array es => es.IsCompact
  | _, .emptyObject ws => ws.val = []
  | _, .object ms => ms.IsCompact
  | _, .item ws v ws' => ws.val = [] ∧ v.IsCompact ∧ ws'.val = []
  | _, .lastElement i => i.IsCompact
  | _, .element i es => i.IsCompact ∧ es.IsCompact
  | _, .lastMember k v => k.IsCompact ∧ v.IsCompact
  | _, .member k v ms => k.IsCompact ∧ v.IsCompact ∧ ms.IsCompact

/-- A number ends where no more of it follows; other values end with their last character. -/
def Tree.Ends : Tree .value → Text → Prop
  | .number _, rest => ∀ c ∈ rest.head?, isNumberChar c = false
  | _, _ => True

/-! ## Characters -/

/-- `w` has been added to `tmp_buf`. -/
structure Adds (b : TmpBuf) (w : Text) (b' : TmpBuf) : Prop where
  bytes : b'.bytes = b.bytes ++ w
  fits  : b'.Fits

section

variable {b b' b'' : TmpBuf} {c x : UInt8} {w w' text rest : Text}

theorem Adds.trans (h : Adds b w b') (h' : Adds b' w' b'') : Adds b (w ++ w') b'' :=
  ⟨by rw [h'.bytes, h.bytes, List.append_assoc], h'.fits⟩

theorem adds_nil (hFits : b.Fits) : Adds b [] b := ⟨(List.append_nil _).symm, hFits⟩

theorem add_adds (hFits : b.Fits) (c : UInt8) : ∃ b', b.add c = .ok b' ∧ Adds b [c] b' := by
  obtain ⟨b', hAdd, hBytes, hFits'⟩ := hFits.add c
  exact ⟨b', hAdd, hBytes, hFits'⟩

theorem skipWhitespace_of_head (h : isSpace c = false) :
    skipWhitespace ⟨b, c :: text⟩ = ⟨b, c :: text⟩ := by
  simp [skipWhitespace, h]

theorem dropWhile_spaces (ws : Spaces) (text : Text) :
    (ws.val ++ text).dropWhile isSpace = text.dropWhile isSpace :=
  List.dropWhile_append_of_pos ws.property

theorem skipChar_cons (hFits : b.Fits) (c : UInt8) (text : Text) :
    ∃ b', skipChar ⟨b, c :: text⟩ = .ok (c, ⟨b', text⟩) ∧ Adds b [c] b' := by
  obtain ⟨b', hAdd, hAdds⟩ := add_adds hFits c
  refine ⟨b', ?_, hAdds⟩
  show (b.add c >>= _) = _
  rw [hAdd]
  rfl

theorem checkChar_cons (hFits : b.Fits) (x : UInt8) (text : Text) :
    ∃ b', checkChar ⟨b, x :: text⟩ x = .ok ⟨b', text⟩ ∧ Adds b [x] b' := by
  obtain ⟨b', hSkip, hAdds⟩ := skipChar_cons hFits x text
  refine ⟨b', ?_, hAdds⟩
  rw [checkChar, hSkip]
  exact if_pos rfl

theorem checkWord_append (hFits : b.Fits) (w text : Text) :
    ∃ b', w.foldlM checkChar ⟨b, w ++ text⟩ = .ok ⟨b', text⟩ ∧ Adds b w b' := by
  induction w generalizing b with
  | nil => exact ⟨b, rfl, adds_nil hFits⟩
  | cons x w ih =>
    obtain ⟨b₁, hCheck, hAdds⟩ := checkChar_cons hFits x (w ++ text)
    obtain ⟨b₂, hRest, hAdds'⟩ := ih hAdds.fits
    refine ⟨b₂, ?_, hAdds.trans hAdds'⟩
    rw [List.foldlM_cons, List.cons_append, hCheck]
    exact hRest

/-! ## Strings, numbers and binary data -/

theorem skipString_plain (hFits : b.Fits) (h : c ≠ 34 ∧ c ≠ 92) (text : Text) :
    ∃ b', skipString false b (c :: text) = skipString false b' text ∧ Adds b [c] b' := by
  obtain ⟨b', hAdd, hAdds⟩ := add_adds hFits c
  refine ⟨b', ?_, hAdds⟩
  rw [skipString, hAdd]
  show (if c = 34 then _ else skipString (decide (c = 92)) b' text) = _
  rw [if_neg h.1, decide_eq_false h.2]

theorem skipString_plains (hFits : b.Fits) (hw : ∀ c ∈ w, c ≠ 34 ∧ c ≠ 92) (text : Text) :
    ∃ b', skipString false b (w ++ text) = skipString false b' text ∧ Adds b w b' := by
  induction w generalizing b with
  | nil => exact ⟨b, rfl, adds_nil hFits⟩
  | cons c w ih =>
    obtain ⟨b₁, hSkip, hAdds⟩ := skipString_plain hFits (hw c List.mem_cons_self) (w ++ text)
    obtain ⟨b₂, hRest, hAdds'⟩ := ih hAdds.fits fun c hc => hw c (List.mem_cons_of_mem _ hc)
    exact ⟨b₂, hSkip.trans hRest, hAdds.trans hAdds'⟩

theorem skipString_escape (hFits : b.Fits) (c : UInt8) (text : Text) :
    ∃ b', skipString false b (92 :: c :: text) = skipString false b' text ∧ Adds b [92, c] b' := by
  obtain ⟨b₁, hAdd, hAdds⟩ := add_adds hFits 92
  obtain ⟨b₂, hAdd', hAdds'⟩ := add_adds hAdds.fits c
  refine ⟨b₂, ?_, hAdds.trans hAdds'⟩
  rw [skipString, hAdd]
  show skipString true b₁ (c :: text) = _
  rw [skipString, hAdd']
  rfl

theorem hex_plain (d : HexDigit) : d.byte ≠ 34 ∧ d.byte ≠ 92 := by
  have hValue := d.hValue
  have hByte : d.byte.toNat =
      if d.value < 10 then 48 + d.value else if d.upper then 55 + d.value else 87 + d.value := by
    unfold HexDigit.byte
    refine UInt8.toNat_ofNat_of_lt' ?_
    show _ < 256
    split_ifs <;> omega
  have hBounds : d.byte.toNat ≠ 34 ∧ d.byte.toNat ≠ 92 := by
    rw [hByte]
    split_ifs <;> omega
  exact ⟨fun hEq => hBounds.1 (by rw [hEq]; rfl), fun hEq => hBounds.2 (by rw [hEq]; rfl)⟩

theorem hexText_plain (h : Hex4) : ∀ c ∈ h.text, c ≠ 34 ∧ c ≠ 92 := by
  intro c hc
  simp only [Hex4.text, List.mem_cons, List.not_mem_nil, or_false] at hc
  rcases hc with rfl | rfl | rfl | rfl
  all_goals exact hex_plain _

theorem skipString_part (hFits : b.Fits) (part : StringPart) (text : Text) :
    ∃ b', skipString false b (part.text ++ text) = skipString false b' text ∧
      Adds b part.text b' := by
  cases part with
  | byte c h => exact skipString_plain hFits h text
  | short letter n h => exact skipString_escape hFits letter text
  | unit h =>
    obtain ⟨b₁, hSkip, hAdds⟩ := skipString_escape hFits 117 (h.text ++ text)
    obtain ⟨b₂, hRest, hAdds'⟩ := skipString_plains hAdds.fits (hexText_plain h) text
    exact ⟨b₂, hSkip.trans hRest, hAdds.trans hAdds'⟩

theorem skipString_parts (hFits : b.Fits) (parts : List StringPart) (text : Text) :
    ∃ b', skipString false b (parts.flatMap StringPart.text ++ 34 :: text) = .ok ⟨b', text⟩ ∧
      Adds b (parts.flatMap StringPart.text ++ [34]) b' := by
  induction parts generalizing b with
  | nil =>
    obtain ⟨b', hAdd, hAdds⟩ := add_adds hFits 34
    refine ⟨b', ?_, hAdds⟩
    show skipString false b (34 :: text) = _
    rw [skipString, hAdd]
    rfl
  | cons part parts ih =>
    obtain ⟨b₁, hSkip, hAdds⟩ :=
      skipString_part hFits part (parts.flatMap StringPart.text ++ 34 :: text)
    obtain ⟨b₂, hRest, hAdds'⟩ := ih hAdds.fits
    rw [List.flatMap_cons, List.append_assoc, List.append_assoc]
    exact ⟨b₂, hSkip.trans hRest, hAdds.trans hAdds'⟩

theorem skipNumber_append (hFits : b.Fits) (hw : ∀ c ∈ w, isNumberChar c = true)
    (hRest : ∀ c ∈ rest.head?, isNumberChar c = false) :
    ∃ b', skipNumber b (w ++ rest) = .ok ⟨b', rest⟩ ∧ Adds b w b' := by
  induction w generalizing b with
  | nil =>
    refine ⟨b, ?_, adds_nil hFits⟩
    cases rest with
    | nil => rfl
    | cons c rest => exact if_neg (Bool.eq_false_iff.1 (hRest c rfl))
  | cons c w ih =>
    obtain ⟨b₁, hAdd, hAdds⟩ := add_adds hFits c
    obtain ⟨b₂, hMore, hAdds'⟩ := ih hAdds.fits fun c hc => hw c (List.mem_cons_of_mem _ hc)
    refine ⟨b₂, (if_pos (hw c List.mem_cons_self)).trans ?_, hAdds.trans hAdds'⟩
    rw [hAdd]
    exact hMore

/-- There is room where the loop ends. -/
theorem reserve_room (size fuel : Nat) (h : b.bytes.length + size ≤ b.size + fuel) :
    (reserve size fuel b).bytes = b.bytes ∧ b.bytes.length + size ≤ (reserve size fuel b).size := by
  induction fuel generalizing b with
  | zero => exact ⟨rfl, h⟩
  | succ fuel ih =>
    rw [reserve]
    by_cases hShort : b.size < b.bytes.length + size
    · rw [if_pos hShort]
      have hMore : b.size < b.realloc.size := by
        simp only [TmpBuf.realloc, memHeapLinkSize]
        split <;> omega
      exact @ih b.realloc (by
        show b.bytes.length + size ≤ _
        omega)
    · rw [if_neg hShort]
      exact ⟨rfl, Nat.not_lt.1 hShort⟩

theorem appendBlock_adds (b : TmpBuf) (block : Text) :
    ∃ b', appendBlock b block = .ok b' ∧ Adds b block b' := by
  obtain ⟨hBytes, hRoom⟩ := reserve_room block.length (b.bytes.length + block.length)
    (Nat.le_add_left _ b.size)
  unfold appendBlock
  generalize reserve block.length (b.bytes.length + block.length) b = b₁ at hBytes hRoom
  rw [← hBytes] at hRoom
  refine ⟨_, if_pos hRoom, congrArg (· ++ block) hBytes, ?_⟩
  show (b₁.bytes ++ block).length ≤ b₁.size
  rwa [List.length_append]

theorem skipBinary_eq {b₀ : TmpBuf} (d : Binary) (rest : Text) (h : Adds b₀ [40] b) :
    ∃ b', skipBinary ⟨b, d.digits ++ 41 :: (d.data ++ rest)⟩ = .ok ⟨b', rest⟩ ∧
      Adds b₀ (34 :: (writeBase64 d.data ++ [34])) b' := by
  have hSize : readDigitsU 0 (d.digits ++ 41 :: (d.data ++ rest)) =
      (d.data.length, 41 :: (d.data ++ rest)) := by
    rw [readDigitsU_eq d.isSize.2 (noDigit_cons rfl _) (d.hLength ▸ d.hLt), d.hLength]
  have hData : readRaw d.data.length (d.data ++ rest) = (d.data, rest) := by
    rw [readRaw_eq (Nat.le_refl _), List.take_length, List.drop_length, List.nil_append]
  have hBytes : b.bytes.dropLast = b₀.bytes := by
    rw [h.bytes, List.dropLast_concat]
  obtain ⟨b', hAppend, hAdds⟩ :=
    appendBlock_adds ⟨b.size, b₀.bytes⟩ (34 :: (writeBase64 d.data ++ [34]))
  refine ⟨b', ?_, hAdds.bytes, hAdds.fits⟩
  have hClose : testChar 41 (41 :: (d.data ++ rest)) = .ok (d.data ++ rest) := by
    simp [testChar]
  unfold skipBinary
  simp only [hSize, hBytes, hClose]
  show (appendBlock _ (34 :: (writeBase64 (readRaw d.data.length (d.data ++ rest)).1 ++ [34])) >>=
    fun b => (.ok ⟨b, (readRaw d.data.length (d.data ++ rest)).2⟩ : Result Skip)) = _
  rw [hData, hAppend]
  rfl

/-! ## Calls -/

theorem skipWhitespace_skipWhitespace (s : Skip) :
    skipWhitespace (skipWhitespace s) = skipWhitespace s := by
  simp [skipWhitespace, List.dropWhile_idempotent]

variable {s s' : Skip}

/-- White space in front of a value is skipped. -/
theorem skipObject_spaces (fuel : Nat) (h : skipWhitespace s = skipWhitespace s') :
    skipObject fuel s = skipObject fuel s' := by
  cases fuel with
  | zero => rfl
  | succ fuel => rw [skipObject, skipObject, h]

theorem skipElements_spaces (fuel : Nat) (h : skipWhitespace s = skipWhitespace s') :
    skipElements fuel s = skipElements fuel s' := by
  cases fuel with
  | zero => rfl
  | succ fuel => rw [skipElements, skipElements, skipObject_spaces fuel h]

theorem skipMembers_spaces (fuel : Nat) (h : skipWhitespace s = skipWhitespace s') :
    skipMembers fuel s = skipMembers fuel s' := by
  cases fuel with
  | zero => rfl
  | succ fuel => rw [skipMembers, skipMembers, skipObject_spaces fuel h]

theorem skipObject_cons (fuel : Nat) (hFits : b.Fits) (hc : isSpace c = false) (text : Text) :
    ∃ b', skipObject (fuel + 1) ⟨b, c :: text⟩ =
      skipValue (skipElements fuel) (skipMembers fuel) c ⟨b', text⟩ ∧ Adds b [c] b' := by
  obtain ⟨b', hSkip, hAdds⟩ := skipChar_cons hFits c text
  refine ⟨b', ?_, hAdds⟩
  rw [skipObject, skipWhitespace_of_head hc, hSkip]
  rfl

end

/-! ## Compact texts -/

/-- The string of some plain characters. -/
def plainParts (w : Text) (hw : ∀ c ∈ w, c ≠ 34 ∧ c ≠ 92) : List StringPart :=
  w.pmap StringPart.byte hw

theorem text_plainParts {w : Text} (hw : ∀ c ∈ w, c ≠ 34 ∧ c ≠ 92) :
    (plainParts w hw).flatMap StringPart.text = w := by
  induction w with
  | nil => rfl
  | cons c w ih => exact congrArg (c :: ·) (ih fun c hc => hw c (List.mem_cons_of_mem _ hc))

theorem unit16_plainParts {w : Text} (hw : ∀ c ∈ w, c ≠ 34 ∧ c ≠ 92) :
    (plainParts w hw).map StringPart.unit16 = w.map .byte := by
  induction w with
  | nil => rfl
  | cons c w ih => exact congrArg (_ :: ·) (ih fun c hc => hw c (List.mem_cons_of_mem _ hc))

def noSpaces : Spaces := ⟨[], List.forall_mem_nil _⟩

/-- The tree without white space and binary data. -/
@[simp] def Tree.compact : {p : Part} → Tree p → Tree p
  | _, .word w => .word w
  | _, .number n => .number n
  | _, .string s => .string s
  | _, .binary d => .string (plainParts (writeBase64 d.data) (writeBase64_plain d.data))
  | _, .emptyArray _ => .emptyArray noSpaces
  | _, .array es => .array es.compact
  | _, .emptyObject _ => .emptyObject noSpaces
  | _, .object ms => .object ms.compact
  | _, .item _ v _ => .item noSpaces v.compact noSpaces
  | _, .lastElement i => .lastElement i.compact
  | _, .element i es => .element i.compact es.compact
  | _, .lastMember k v => .lastMember k.compact v.compact
  | _, .member k v ms => .member k.compact v.compact ms.compact

variable {p : Part}

theorem Tree.isCompact_compact (t : Tree p) : t.compact.IsCompact := by
  induction t with
  | word | number | string | binary => trivial
  | emptyArray | emptyObject => rfl
  | array es ih => exact ih
  | object ms ih => exact ih
  | item ws v ws' ih => exact ⟨rfl, ih, rfl⟩
  | lastElement i ih => exact ih
  | element i es ih ih' => exact ⟨ih, ih'⟩
  | lastMember k v ih ih' => exact ⟨ih, ih'⟩
  | member k v ms ih ih' ih'' => exact ⟨ih, ih', ih''⟩

/-- A compact tree has the same meaning. -/
theorem Tree.meaning_compact (t : Tree p) : t.compact.meaning = t.meaning := by
  induction t with
  | word | number | string | emptyArray | emptyObject => rfl
  | binary d =>
    show _ = Value.string ((base64 d.data).map .byte)
    rw [← writeBase64_eq]
    exact congrArg Value.string (unit16_plainParts _)
  | array es ih => exact congrArg Value.array ih
  | object ms ih => exact congrArg Value.object ih
  | item ws v ws' ih => exact ih
  | lastElement i ih =>
    simp only [Tree.compact, Tree.meaning, ih]
    rfl
  | element i es ih ih' =>
    simp only [Tree.compact, Tree.meaning, ih, ih']
    rfl
  | lastMember k v ih ih' =>
    simp only [Tree.compact, Tree.meaning, ih, ih']
    rfl
  | member k v ms ih ih' ih'' =>
    simp only [Tree.compact, Tree.meaning, ih, ih', ih'']
    rfl

/-- A compact tree is its own one. -/
theorem Tree.compact_eq {t : Tree p} (h : t.IsCompact) : t.compact = t := by
  have hSpaces {ws : Spaces} (hNone : ws.val = []) : noSpaces = ws := Subtype.ext hNone.symm
  induction t with
  | word | number | string => rfl
  | binary d => exact h.elim
  | emptyArray ws => exact congrArg Tree.emptyArray (hSpaces h)
  | array es ih => exact congrArg Tree.array (ih h)
  | emptyObject ws => exact congrArg Tree.emptyObject (hSpaces h)
  | object ms ih => exact congrArg Tree.object (ih h)
  | item ws v ws' ih =>
    have hFirst := hSpaces h.1
    have hLast := hSpaces h.2.2
    rw [Tree.compact, ih h.2.1]
    exact congrArg₂ (Tree.item · v ·) hFirst hLast
  | lastElement i ih => exact congrArg Tree.lastElement (ih h)
  | element i es ih ih' => rw [Tree.compact, ih h.1, ih' h.2]
  | lastMember k v ih ih' => rw [Tree.compact, ih h.1, ih' h.2]
  | member k v ms ih ih' ih'' => rw [Tree.compact, ih h.1, ih' h.2.1, ih'' h.2.2]

/-! ## Parts -/

/-- A part of a text is skipped to its end, and its compact text is added to `tmp_buf`. -/
def Skips : {p : Part} → Tree p → Prop
  | .value, v => ∀ (fuel : Nat) (b : TmpBuf) (rest : Text), b.Fits → v.text.length < fuel →
      v.Ends rest → ∃ b', skipObject fuel ⟨b, v.text ++ rest⟩ = .ok ⟨b', rest⟩ ∧
        Adds b v.compact.text b'
  | .item, i => ∀ (fuel : Nat) (b : TmpBuf) (c : UInt8) (rest : Text), b.Fits →
      i.text.length < fuel → isSpace c = false → isNumberChar c = false →
      ∃ b' text, skipObject fuel ⟨b, i.text ++ c :: rest⟩ = .ok ⟨b', text⟩ ∧
        Adds b i.compact.text b' ∧ text.dropWhile isSpace = c :: rest
  | .elements, es => ∀ (fuel : Nat) (b : TmpBuf) (rest : Text), b.Fits →
      es.text.length + 1 < fuel →
      ∃ b', skipElements fuel ⟨b, es.text ++ 93 :: rest⟩ = .ok ⟨b', rest⟩ ∧
        Adds b (es.compact.text ++ [93]) b'
  | .members, ms => ∀ (fuel : Nat) (b : TmpBuf) (rest : Text), b.Fits →
      ms.text.length + 1 < fuel →
      ∃ b', skipMembers fuel ⟨b, ms.text ++ 125 :: rest⟩ = .ok ⟨b', rest⟩ ∧
        Adds b (ms.compact.text ++ [125]) b'

section

variable {b : TmpBuf} {c : UInt8} {text rest : Text} {ws ws' : Spaces} {v : Tree .value}
  {i k : Tree .item} {es : Tree .elements} {ms : Tree .members}

theorem skipChar_next (hFits : b.Fits) (hText : text.dropWhile isSpace = c :: rest) :
    ∃ b', skipChar (skipWhitespace ⟨b, text⟩) = .ok (c, ⟨b', rest⟩) ∧ Adds b [c] b' := by
  unfold skipWhitespace
  rw [hText]
  exact skipChar_cons hFits c rest

theorem checkChar_next (hFits : b.Fits) (hText : text.dropWhile isSpace = c :: rest) :
    ∃ b', checkChar (skipWhitespace ⟨b, text⟩) c = .ok ⟨b', rest⟩ ∧ Adds b [c] b' := by
  unfold skipWhitespace
  rw [hText]
  exact checkChar_cons hFits c rest

theorem skipWhitespace_append (b : TmpBuf) (ws : Spaces) (text : Text) :
    skipWhitespace ⟨b, ws.val ++ text⟩ = skipWhitespace ⟨b, text⟩ := by
  unfold skipWhitespace
  rw [dropWhile_spaces]

theorem isNumberChar_of_isSpace (h : isSpace c = true) : isNumberChar c = false := by
  rw [← Bool.not_eq_true]
  intro hNumber
  simp only [isSpace, isNumberChar, isDigit, Bool.or_eq_true, Bool.and_eq_true, decide_eq_true_eq,
    UInt8.le_iff_toNat_le, ← UInt8.toNat_inj, UInt8.reduceToNat] at h hNumber
  omega

theorem Tree.ends_of (v : Tree .value) (h : ∀ c ∈ rest.head?, isNumberChar c = false) :
    v.Ends rest := by
  cases v with
  | number n => exact h
  | _ => trivial

/-- A value begins with a character that is neither white space nor a closing bracket. -/
theorem Tree.value_cons (v : Tree .value) :
    ∃ c t, v.text = c :: t ∧ isSpace c = false ∧ c ≠ 93 ∧ c ≠ 125 := by
  cases v with
  | word w =>
    cases w with
    | none => exact ⟨110, ascii "ull", rfl, by decide⟩
    | some w =>
      cases w with
      | false => exact ⟨102, ascii "alse", rfl, by decide⟩
      | true => exact ⟨116, ascii "rue", rfl, by decide⟩
  | number n =>
    refine ⟨n.first, n.more, rfl, ?_⟩
    rcases n.isFirst with hMinus | hDigit
    · rw [hMinus]
      decide
    · have hBounds := digit_le hDigit
      refine ⟨(isSpace_of_isDigit hDigit).1, ?_, ?_⟩
      · rintro hEq
        rw [hEq] at hBounds
        exact absurd hBounds (by decide)
      · rintro hEq
        rw [hEq] at hBounds
        exact absurd hBounds (by decide)
  | string s => exact ⟨34, _, rfl, by decide⟩
  | binary d => exact ⟨40, _, rfl, by decide⟩
  | emptyArray ws => exact ⟨91, _, rfl, by decide⟩
  | array es => exact ⟨91, _, rfl, by decide⟩
  | emptyObject ws => exact ⟨123, _, rfl, by decide⟩
  | object ms => exact ⟨123, _, rfl, by decide⟩

theorem Tree.item_cons (i : Tree .item) (rest : Text) :
    ∃ c t, (i.text ++ rest).dropWhile isSpace = c :: t ∧ c ≠ 93 ∧ c ≠ 125 := by
  cases i with
  | item ws v ws' =>
    obtain ⟨c, t, hText, hSpace, hBrackets⟩ := v.value_cons
    refine ⟨c, t ++ (ws'.val ++ rest), ?_, hBrackets⟩
    simp only [Tree.text, List.append_assoc, dropWhile_spaces, hText, List.cons_append]
    exact List.dropWhile_cons_of_neg (Bool.eq_false_iff.1 hSpace)

theorem skips_item (h : Skips v) : Skips (.item ws v ws') := by
  intro fuel b c rest hFits hFuel hSpace hNumber
  have hText : (Tree.item ws v ws').text ++ c :: rest =
      ws.val ++ (v.text ++ (ws'.val ++ c :: rest)) := by
    simp only [Tree.text, List.append_assoc]
  have hShort : v.text.length < fuel := by
    simp only [Tree.text, List.length_append] at hFuel
    omega
  have hEnds : v.Ends (ws'.val ++ c :: rest) := by
    refine v.ends_of ?_
    intro d hd
    rcases ws' with ⟨_ | ⟨e, ws'⟩, hws'⟩
    · cases hd
      exact hNumber
    · cases hd
      exact isNumberChar_of_isSpace (hws' _ List.mem_cons_self)
  obtain ⟨b', hRun, hAdds⟩ := h fuel b (ws'.val ++ c :: rest) hFits hShort hEnds
  refine ⟨b', ws'.val ++ c :: rest, ?_, ?_, ?_⟩
  · rw [hText, skipObject_spaces fuel (skipWhitespace_append b ws _)]
    exact hRun
  · have hSame : (Tree.item ws v ws').compact.text = v.compact.text := by
      simp [Tree.compact, Tree.text, noSpaces]
    rw [hSame]
    exact hAdds
  · rw [dropWhile_spaces, List.dropWhile_cons_of_neg (Bool.eq_false_iff.1 hSpace)]

theorem skips_lastElement (h : Skips i) : Skips (.lastElement i) := by
  intro fuel b rest hFits hFuel
  obtain ⟨fuel, rfl⟩ : ∃ n, fuel = n + 1 := ⟨fuel - 1, by omega⟩
  obtain ⟨b₁, text, hRun, hAdds, hText⟩ :=
    h fuel b 93 rest hFits (by simp only [Tree.text] at hFuel; omega) rfl rfl
  obtain ⟨b₂, hNext, hAdds'⟩ := skipChar_next hAdds.fits hText
  refine ⟨b₂, ?_, hAdds.trans hAdds'⟩
  show skipElements _ ⟨b, i.text ++ 93 :: rest⟩ = _
  rw [skipElements, hRun]
  show (skipChar (skipWhitespace ⟨b₁, text⟩) >>= _) = _
  rw [hNext]
  rfl

theorem skips_element (h : Skips i) (hMore : Skips es) : Skips (.element i es) := by
  intro fuel b rest hFits hFuel
  obtain ⟨fuel, rfl⟩ : ∃ n, fuel = n + 1 := ⟨fuel - 1, by omega⟩
  simp only [Tree.text, List.length_append, List.length_cons] at hFuel
  obtain ⟨b₁, text, hRun, hAdds, hText⟩ :=
    h fuel b 44 (es.text ++ 93 :: rest) hFits (by omega) rfl rfl
  obtain ⟨b₂, hNext, hAdds'⟩ := skipChar_next hAdds.fits hText
  obtain ⟨b₃, hRest, hAdds''⟩ := hMore fuel b₂ rest hAdds'.fits (by omega)
  refine ⟨b₃, ?_, ?_⟩
  · show skipElements _ ⟨b, (i.text ++ 44 :: es.text) ++ 93 :: rest⟩ = _
    rw [List.append_assoc, List.cons_append, skipElements, hRun]
    show (skipChar (skipWhitespace ⟨b₁, text⟩) >>= _) = _
    rw [hNext]
    exact hRest
  · show Adds b ((i.compact.text ++ 44 :: es.compact.text) ++ [93]) b₃
    rw [List.append_assoc]
    exact hAdds.trans (hAdds'.trans hAdds'')

/-- The key of a member and its value. -/
theorem skips_pair {fuel : Nat} (hk : Skips k) (h : Skips i) (hFits : b.Fits)
    (hFuel : k.text.length + i.text.length < fuel) (hSpace : isSpace c = false)
    (hNumber : isNumberChar c = false) (rest : Text) :
    ∃ b', (∀ next : UInt8 × Skip → Result Skip, (do
      let s ← skipObject fuel ⟨b, k.text ++ 58 :: (i.text ++ c :: rest)⟩
      let s ← checkChar (skipWhitespace s) 58
      let s ← skipObject fuel s
      skipChar (skipWhitespace s) >>= next) = next (c, ⟨b', rest⟩)) ∧
      Adds b (k.compact.text ++ 58 :: (i.compact.text ++ [c])) b' := by
  obtain ⟨b₁, text, hKey, hAdds₁, hText⟩ :=
    hk fuel b 58 (i.text ++ c :: rest) hFits (by omega) rfl rfl
  obtain ⟨b₂, hColon, hAdds₂⟩ := checkChar_next hAdds₁.fits hText
  obtain ⟨b₃, text', hValue, hAdds₃, hText'⟩ :=
    h fuel b₂ c rest hAdds₂.fits (by omega) hSpace hNumber
  obtain ⟨b₄, hNext, hAdds₄⟩ := skipChar_next hAdds₃.fits hText'
  refine ⟨b₄, fun next => ?_, hAdds₁.trans (hAdds₂.trans (hAdds₃.trans hAdds₄))⟩
  rw [hKey]
  show (checkChar (skipWhitespace ⟨b₁, text⟩) 58 >>= _) = _
  rw [hColon]
  show (skipObject fuel ⟨b₂, _⟩ >>= _) = _
  rw [hValue]
  show (skipChar (skipWhitespace ⟨b₃, text'⟩) >>= _) = _
  rw [hNext]
  rfl

theorem skips_lastMember (hk : Skips k) (h : Skips i) : Skips (.lastMember k i) := by
  intro fuel b rest hFits hFuel
  obtain ⟨fuel, rfl⟩ : ∃ n, fuel = n + 1 := ⟨fuel - 1, by omega⟩
  simp only [Tree.text, List.length_append, List.length_cons] at hFuel
  obtain ⟨b', hRun, hAdds⟩ :=
    skips_pair (c := 125) hk h hFits (by omega : _ < fuel) rfl rfl rest
  refine ⟨b', ?_, ?_⟩
  · show skipMembers _ ⟨b, (k.text ++ 58 :: i.text) ++ 125 :: rest⟩ = _
    rw [List.append_assoc, List.cons_append, skipMembers]
    exact hRun _
  · show Adds b ((k.compact.text ++ 58 :: i.compact.text) ++ [125]) b'
    rwa [List.append_assoc]

theorem skips_member (hk : Skips k) (h : Skips i) (hMore : Skips ms) : Skips (.member k i ms) := by
  intro fuel b rest hFits hFuel
  obtain ⟨fuel, rfl⟩ : ∃ n, fuel = n + 1 := ⟨fuel - 1, by omega⟩
  simp only [Tree.text, List.length_append, List.length_cons] at hFuel
  obtain ⟨b₁, hRun, hAdds⟩ :=
    skips_pair (c := 44) hk h hFits (by omega : _ < fuel) rfl rfl (ms.text ++ 125 :: rest)
  obtain ⟨b₂, hRest, hAdds'⟩ := hMore fuel b₁ rest hAdds.fits (by omega)
  refine ⟨b₂, ?_, ?_⟩
  · show skipMembers _ ⟨b, (k.text ++ 58 :: (i.text ++ 44 :: ms.text)) ++ 125 :: rest⟩ = _
    rw [List.append_assoc, List.cons_append, List.append_assoc, List.cons_append, skipMembers]
    exact (hRun _).trans hRest
  · have hSame : (Tree.member k i ms).compact.text ++ [125] =
        (k.compact.text ++ 58 :: (i.compact.text ++ [44])) ++ (ms.compact.text ++ [125]) := by
      simp [Tree.compact, Tree.text]
    rw [hSame]
    exact hAdds.trans hAdds'

/-- Values of one call. -/
theorem skips_of_cons {t t' : Text} (hText : v.text = c :: t) (hCompact : v.compact.text = c :: t')
    (hSpace : isSpace c = false)
    (h : ∀ (fuel : Nat) (b₀ b : TmpBuf) (rest : Text), Adds b₀ [c] b → t.length < fuel →
      v.Ends rest → ∃ b', skipValue (skipElements fuel) (skipMembers fuel) c ⟨b, t ++ rest⟩ =
        .ok ⟨b', rest⟩ ∧ Adds b₀ (c :: t') b') : Skips v := by
  intro fuel b rest hFits hFuel hEnds
  obtain ⟨fuel, rfl⟩ : ∃ n, fuel = n + 1 := ⟨fuel - 1, by omega⟩
  rw [hText, List.length_cons] at hFuel
  obtain ⟨b₁, hFirst, hAdds⟩ := skipObject_cons fuel hFits hSpace (t ++ rest)
  obtain ⟨b₂, hRun, hAdds'⟩ := h fuel b b₁ rest hAdds (by omega) hEnds
  rw [hText, hCompact]
  exact ⟨b₂, hFirst.trans hRun, hAdds'⟩

theorem skips_word (w : Option Bool) : Skips (.word w) := by
  have hWord {c : UInt8} {t : Text} (hText : (Tree.word w).text = c :: t)
      (hSpace : isSpace c = false)
      (hSwitch : ∀ elements members s, skipValue elements members c s = t.foldlM checkChar s) :
      Skips (.word w) := by
    refine skips_of_cons hText hText hSpace ?_
    intro fuel b₀ b rest hAdds hFuel hEnds
    obtain ⟨b', hRun, hAdds'⟩ := checkWord_append hAdds.fits t rest
    exact ⟨b', (hSwitch _ _ _).trans hRun, hAdds.trans hAdds'⟩
  rcases w with _ | _ | _
  · exact hWord rfl rfl fun _ _ _ => rfl
  · exact hWord rfl rfl fun _ _ _ => rfl
  · exact hWord rfl rfl fun _ _ _ => rfl

theorem skips_number (n : Number) : Skips (.number n) := by
  obtain ⟨c, t, hText, hSpace, -⟩ := (Tree.number n).value_cons
  obtain ⟨rfl, rfl⟩ := List.cons.inj hText
  refine skips_of_cons rfl rfl hSpace ?_
  intro fuel b₀ b rest hAdds hFuel hEnds
  obtain ⟨b', hRun, hAdds'⟩ := skipNumber_append hAdds.fits n.isMore hEnds
  refine ⟨b', ?_, hAdds.trans hAdds'⟩
  have hOther : n.first ≠ 110 ∧ n.first ≠ 102 ∧ n.first ≠ 116 ∧ n.first ≠ 34 := by
    rcases n.isFirst with hMinus | hDigit
    · rw [hMinus]
      decide
    · have hBounds := digit_le hDigit
      refine ⟨?_, ?_, ?_, ?_⟩
      all_goals
        intro hEq
        rw [hEq] at hBounds
        exact absurd hBounds (by decide)
  unfold skipValue
  rw [if_neg hOther.1, if_neg hOther.2.1, if_neg hOther.2.2.1, if_neg hOther.2.2.2,
    if_pos n.isFirst]
  exact hRun

theorem skips_string (s : List StringPart) : Skips (.string s) := by
  refine skips_of_cons rfl rfl rfl ?_
  intro fuel b₀ b rest hAdds hFuel hEnds
  obtain ⟨b', hRun, hAdds'⟩ := skipString_parts hAdds.fits s rest
  refine ⟨b', ?_, hAdds.trans hAdds'⟩
  rw [List.append_assoc]
  exact hRun

theorem skips_binary (d : Binary) : Skips (.binary d) := by
  intro fuel b rest hFits hFuel hEnds
  obtain ⟨fuel, rfl⟩ : ∃ n, fuel = n + 1 := ⟨fuel - 1, by omega⟩
  obtain ⟨b₁, hFirst, hAdds⟩ :=
    skipObject_cons fuel hFits (rfl : isSpace 40 = false) (d.digits ++ 41 :: (d.data ++ rest))
  obtain ⟨b₂, hRun, hAdds'⟩ := skipBinary_eq d rest hAdds
  refine ⟨b₂, ?_, ?_⟩
  · have hText : (Tree.binary d).text ++ rest = 40 :: (d.digits ++ 41 :: (d.data ++ rest)) := by
      simp [Tree.text]
    rw [hText]
    exact hFirst.trans hRun
  · have hSame : (Tree.binary d).compact.text = 34 :: (writeBase64 d.data ++ [34]) := by
      simp only [Tree.compact, Tree.text, text_plainParts]
    rw [hSame]
    exact hAdds'

/-- Nothing but white space between brackets. -/
theorem skips_empty {x : UInt8} (hText : v.text = c :: (ws.val ++ [x]))
    (hCompact : v.compact.text = [c, x]) (hOpen : isSpace c = false) (hClose : isSpace x = false)
    (hSwitch : ∀ elements members s, (skipWhitespace s).text.head? = some x →
      skipValue elements members c s = checkChar (skipWhitespace s) x) : Skips v := by
  refine skips_of_cons hText hCompact hOpen ?_
  intro fuel b₀ b rest hAdds hFuel hEnds
  have hNext : ((ws.val ++ [x]) ++ rest).dropWhile isSpace = x :: rest := by
    rw [List.append_assoc, dropWhile_spaces]
    exact List.dropWhile_cons_of_neg (Bool.eq_false_iff.1 hClose)
  obtain ⟨b', hRun, hAdds'⟩ := checkChar_next hAdds.fits hNext
  exact ⟨b', (hSwitch _ _ ⟨b, (ws.val ++ [x]) ++ rest⟩ (congrArg List.head? hNext)).trans hRun,
    hAdds.trans hAdds'⟩

/-- What is between brackets is left to a loop. -/
theorem skips_filled {x : UInt8} {w w' : Text} (loop : Nat → Skip → Result Skip)
    (hText : v.text = c :: (w ++ [x])) (hCompact : v.compact.text = c :: (w' ++ [x]))
    (hOpen : isSpace c = false) (hFirst : ∀ rest, ((w ++ rest).dropWhile isSpace).head? ≠ some x)
    (hSwitch : ∀ fuel s, (skipWhitespace s).text.head? ≠ some x →
      skipValue (skipElements fuel) (skipMembers fuel) c s = loop fuel s)
    (hLoop : ∀ (fuel : Nat) (b : TmpBuf) (rest : Text), b.Fits → w.length + 1 < fuel →
      ∃ b', loop fuel ⟨b, w ++ x :: rest⟩ = .ok ⟨b', rest⟩ ∧ Adds b (w' ++ [x]) b') : Skips v := by
  refine skips_of_cons hText hCompact hOpen ?_
  intro fuel b₀ b rest hAdds hFuel hEnds
  rw [List.length_append, List.length_singleton] at hFuel
  obtain ⟨b', hRun, hAdds'⟩ := hLoop fuel b rest hAdds.fits hFuel
  refine ⟨b', ?_, hAdds.trans hAdds'⟩
  rw [List.append_assoc]
  exact (hSwitch fuel ⟨b, w ++ ([x] ++ rest)⟩ (hFirst ([x] ++ rest))).trans hRun

theorem Tree.elements_first (es : Tree .elements) (rest : Text) :
    ((es.text ++ rest).dropWhile isSpace).head? ≠ some 93 := by
  have hItem (i : Tree .item) (rest : Text) :
      ((i.text ++ rest).dropWhile isSpace).head? ≠ some 93 := by
    obtain ⟨c, t, hText, hArray, -⟩ := i.item_cons rest
    rw [hText]
    exact fun hEq => hArray (Option.some.inj hEq)
  cases es with
  | lastElement i => exact hItem i rest
  | element i es =>
    simp only [Tree.text, List.append_assoc]
    exact hItem i _

theorem Tree.members_first (ms : Tree .members) (rest : Text) :
    ((ms.text ++ rest).dropWhile isSpace).head? ≠ some 125 := by
  have hItem (i : Tree .item) (rest : Text) :
      ((i.text ++ rest).dropWhile isSpace).head? ≠ some 125 := by
    obtain ⟨c, t, hText, -, hObject⟩ := i.item_cons rest
    rw [hText]
    exact fun hEq => hObject (Option.some.inj hEq)
  cases ms with
  | lastMember k v =>
    simp only [Tree.text, List.append_assoc]
    exact hItem k _
  | member k v ms =>
    simp only [Tree.text, List.append_assoc]
    exact hItem k _

theorem skips_array (h : Skips es) : Skips (.array es) :=
  skips_filled skipElements rfl rfl rfl es.elements_first
    (fun fuel s hOpen =>
      (if_neg hOpen).trans (skipElements_spaces fuel (skipWhitespace_skipWhitespace s))) h

theorem skips_object (h : Skips ms) : Skips (.object ms) :=
  skips_filled skipMembers rfl rfl rfl ms.members_first
    (fun fuel s hOpen =>
      (if_neg hOpen).trans (skipMembers_spaces fuel (skipWhitespace_skipWhitespace s))) h

end

/-- Every part is copied as its compact tree. -/
theorem skips (t : Tree p) : Skips t := by
  induction t with
  | word w => exact skips_word w
  | number n => exact skips_number n
  | string s => exact skips_string s
  | binary d => exact skips_binary d
  | emptyArray ws => exact skips_empty rfl rfl rfl rfl fun _ _ _ hEmpty => if_pos hEmpty
  | array es ih => exact skips_array ih
  | emptyObject ws => exact skips_empty rfl rfl rfl rfl fun _ _ _ hEmpty => if_pos hEmpty
  | object ms ih => exact skips_object ih
  | item ws v ws' ih => exact skips_item ih
  | lastElement i ih => exact skips_lastElement ih
  | element i es ih ih' => exact skips_element ih ih'
  | lastMember k v ih ih' => exact skips_lastMember ih ih'
  | member k v ms ih ih' ih'' => exact skips_member ih ih' ih''

/-- `json_read_object` of a value with white space in front of it. -/
theorem jsonReadObject_eq (lead : Spaces) (v : Tree .value) {rest : Text} (hEnds : v.Ends rest)
    (b : TmpBuf) :
    ∃ b', jsonReadObject b (lead.val ++ (v.text ++ rest)) =
      .ok (v.compact.text ++ [0], b', rest) := by
  have hShort : v.text.length < 2 * (lead.val ++ (v.text ++ rest)).length + 2 := by
    rw [List.length_append, List.length_append]
    omega
  obtain ⟨b₁, hRun, hAdds⟩ := skips v _ b.reset rest (fits_reset b) hShort hEnds
  obtain ⟨b₂, hAdd, hAdds'⟩ := add_adds hAdds.fits 0
  refine ⟨b₂, ?_⟩
  unfold jsonReadObject
  rw [skipObject_spaces _ (skipWhitespace_append _ lead _), hRun]
  show (b₁.add 0 >>= _) = _
  rw [hAdd]
  have hBytes : b₂.bytes = v.compact.text ++ [0] := (hAdds.trans hAdds').bytes
  show Except.ok (b₂.bytes, b₂, rest) = _
  rw [hBytes]

/-- The copy of a value has neither white space outside of strings nor binary data, denotes the
same, and is copied unchanged. -/
theorem read_object (lead : Spaces) (v : Tree .value) (rest : Text) (hEnds : v.Ends rest) :
    ∃ w : Tree .value, w.IsCompact ∧ w.meaning = v.meaning ∧
      (∀ b, ∃ b', jsonReadObject b (lead.val ++ (v.text ++ rest)) =
        .ok (w.text ++ [0], b', rest)) ∧
      ∀ rest', w.Ends rest' → ∀ b, ∃ b', jsonReadObject b (w.text ++ rest') =
        .ok (w.text ++ [0], b', rest') := by
  refine ⟨v.compact, v.isCompact_compact, v.meaning_compact, jsonReadObject_eq lead v hEnds, ?_⟩
  intro rest' hEnds'
  have hAgain := jsonReadObject_eq noSpaces v.compact hEnds'
  rwa [Tree.compact_eq v.isCompact_compact] at hAgain

/-- Two raw bytes in an array, with white space in front of them. -/
theorem read_object_two : ∃ v w : Tree .value, v.text = ascii "[ (2)ab]" ∧ w.IsCompact ∧
    w.meaning = v.meaning ∧
    ∀ b, ∃ b', jsonReadObject b (ascii "[ (2)ab],") = .ok (w.text ++ [0], b', ascii ",") := by
  let ws : Spaces := ⟨[32], List.forall_mem_singleton.2 rfl⟩
  let d : Binary := ⟨[50], [97, 98], ⟨by decide, List.forall_mem_singleton.2 rfl⟩, rfl, by decide⟩
  let v : Tree .value := .array (.lastElement (.item ws (.binary d) noSpaces))
  obtain ⟨w, hCompact, hMeaning, hRun, -⟩ := read_object noSpaces v (ascii ",") trivial
  have hText : v.text = ascii "[ (2)ab]" := by decide
  have hNext : ascii "[ (2)ab]," = ascii "[ (2)ab]" ++ ascii "," := by decide
  refine ⟨v, w, hText, hCompact, hMeaning, ?_⟩
  rw [hNext, ← hText]
  exact hRun

end TcfAgent.JsonObject
