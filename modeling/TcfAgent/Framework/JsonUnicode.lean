import TcfAgent.Framework.JsonBuffers

/-!
# Unicode in JSON strings

What the literals of strings denote: a sequence of Unicode scalar values, each of which is written
as it is, as one of the short escape sequences, as four hexadecimal digits or, where four digits are
not enough, as a pair of surrogates. `read_esc_char` makes bytes out of one escape sequence at a
time.

Main results

* `utf8_eq`              — four digits become the UTF-8 sequence of their character
* `readAlloc_literal`    — which bytes are made of a literal; a pair becomes six
* `unicode_read_iff`     — what is returned is UTF-8 exactly where there is no pair
-/

namespace TcfAgent.JsonBuffers

open TcfAgent.JsonString TcfAgent.JsonText

/-! ## Literals -/

/-- A hexadecimal digit; the letters are upper or lower case. -/
structure HexDigit where
  value  : Nat
  hValue : value < 16
  upper  : Bool

def HexDigit.byte (d : HexDigit) : UInt8 :=
  UInt8.ofNat
    (if d.value < 10 then 48 + d.value else if d.upper then 55 + d.value else 87 + d.value)

/-- The digits of an escape sequence. -/
structure Hex4 where
  d3 : HexDigit
  d2 : HexDigit
  d1 : HexDigit
  d0 : HexDigit

def Hex4.text (h : Hex4) : Text := [h.d3.byte, h.d2.byte, h.d1.byte, h.d0.byte]

def Hex4.value (h : Hex4) : Nat :=
  h.d3.value * 0x1000 + h.d2.value * 0x100 + h.d1.value * 0x10 + h.d0.value

/-- The letters of the short escape sequences and the characters they stand for. -/
def shortEscapes : List (UInt8 × Nat) :=
  [(34, 34), (92, 92), (47, 47), (98, 8), (102, 12), (110, 10), (114, 13), (116, 9)]

/-- The character of a pair of surrogates. -/
def pairValue (hi lo : Nat) : Nat := 0x10000 + (hi - 0xd800) * 0x400 + (lo - 0xdc00)

/-- One character of a literal. -/
inductive Piece where
  | raw (c : Char) (h : c.toNat ≠ 34 ∧ c.toNat ≠ 92)
  | short (letter : UInt8) (n : Nat) (h : (letter, n) ∈ shortEscapes)
  | unit (h : Hex4) (hScalar : h.value.isValidChar)
  | pair (hi lo : Hex4) (hHi : 0xd800 ≤ hi.value ∧ hi.value < 0xdc00)
      (hLo : 0xdc00 ≤ lo.value ∧ lo.value < 0xe000)

def Piece.isPair : Piece → Bool
  | .pair .. => true
  | _ => false

/-- The character as it is written. -/
def Piece.text : Piece → Text
  | .raw c _ => String.utf8EncodeChar c
  | .short letter _ _ => [92, letter]
  | .unit h _ => 92 :: 117 :: h.text
  | .pair hi lo _ _ => 92 :: 117 :: (hi.text ++ 92 :: 117 :: lo.text)

/-- The character that is denoted. -/
def Piece.char : Piece → Char
  | .raw c _ => c
  | .short _ n _ => Char.ofNat n
  | .unit h hScalar => Char.ofNatAux h.value hScalar
  | .pair hi lo _ _ => Char.ofNat (pairValue hi.value lo.value)

/-- The bytes that are read. -/
def Piece.bytes : Piece → Text
  | .raw c _ => String.utf8EncodeChar c
  | .short _ n _ => [UInt8.ofNat n]
  | .unit h _ => utf8 h.value
  | .pair hi lo _ _ => utf8 hi.value ++ utf8 lo.value

/-- A string with its quotes. -/
def literalText (ps : List Piece) : Text := 34 :: (ps.flatMap Piece.text ++ [34])

/-- The UTF-8 encoding of what a literal denotes. -/
def literalUtf8 (ps : List Piece) : Text := (ps.map Piece.char).flatMap String.utf8EncodeChar

/-! ## Bytes -/

/-- Four digits become the UTF-8 sequence of their character. -/
theorem utf8_eq {n : Nat} (h : n.isValidChar) (hLt : n < 0x10000) :
    utf8 n = String.utf8EncodeChar (Char.ofNatAux n h) := by
  have hVal : (Char.ofNatAux n h).val.toNat = n := rfl
  unfold utf8 String.utf8EncodeChar
  simp only [hVal]
  by_cases hOne : n < 0x80
  · have hOne' : n ≤ 0x7f := by omega
    simp only [hOne, hOne', ↓reduceIte]
  · have hOne' : ¬ n ≤ 0x7f := by omega
    by_cases hTwo : n < 0x800
    · have hTwo' : n ≤ 0x7ff := by omega
      have hHigh : n / 64 % 0x20 = n / 0x40 := Nat.mod_eq_of_lt (by omega)
      simp only [hOne, hOne', hTwo, hTwo', ↓reduceIte, hHigh, Nat.add_comm (n / _),
        Nat.add_comm (n % _)]
    · have hTwo' : ¬ n ≤ 0x7ff := by omega
      have hThree : n ≤ 0xffff := by omega
      have hHigh : n / 4096 % 0x10 = n / 0x1000 := Nat.mod_eq_of_lt (by omega)
      simp only [hOne, hOne', hTwo, hTwo', hThree, ↓reduceIte, hHigh, Nat.add_comm (n / _),
        Nat.add_comm (n % _), Nat.add_comm (n / _ % _)]

theorem Hex4.lt (h : Hex4) : h.value < 0x10000 := by
  have h3 := h.d3.hValue
  have h2 := h.d2.hValue
  have h1 := h.d1.hValue
  have h0 := h.d0.hValue
  unfold Hex4.value
  omega

theorem readHexDigit_byte (d : HexDigit) (rest : Text) :
    readHexDigit (d.byte :: rest) = some (d.value, rest) := by
  have hAll : ∀ n : Fin 16, ∀ upper : Bool,
      readHexDigit [HexDigit.byte ⟨n, n.isLt, upper⟩] = some (n.val, []) := by decide
  have hOne := hAll ⟨d.value, d.hValue⟩ d.upper
  have hSame : HexDigit.byte ⟨d.value, d.hValue, d.upper⟩ = d.byte := rfl
  simp only [hSame, readHexDigit] at hOne ⊢
  split_ifs at hOne ⊢
  all_goals simp_all

theorem readHexChar_text (h : Hex4) (rest : Text) :
    readHexChar (h.text ++ rest) = some (h.value, rest) := by
  simp only [Hex4.text, List.cons_append, List.nil_append, readHexChar, readHexDigit_byte,
    Option.bind_eq_bind, Option.bind_some, Hex4.value]

theorem readEscChar_unit (h : Hex4) (rest : Text) :
    readEscChar (117 :: (h.text ++ rest)) = some (utf8 h.value, rest) := by
  rw [readEscChar_hex, readHexChar_text]
  rfl

/-- No byte of a character but a quote is one, nor a backslash. -/
theorem encode_plain {c : Char} (h : c.toNat ≠ 34 ∧ c.toNat ≠ 92) :
    ∀ b ∈ String.utf8EncodeChar c, b ≠ 34 ∧ b ≠ 92 := by
  have hHigh : ∀ n m : Nat, 0x80 ≤ m → n < 0x100 - m → UInt8.ofNat (n + m) ≠ 34 ∧
    UInt8.ofNat (n + m) ≠ 92 := by
    intro n m hm hn
    have hNat : (UInt8.ofNat (n + m)).toNat = n + m := by
      simp
      omega
    refine ⟨fun hEq => ?_, fun hEq => ?_⟩
    · have := congrArg UInt8.toNat hEq
      rw [hNat] at this
      simp at this
      omega
    · have := congrArg UInt8.toNat hEq
      rw [hNat] at this
      simp at this
      omega
  have hVal : c.val.toNat = c.toNat := rfl
  intro b hb
  unfold String.utf8EncodeChar at hb
  simp only [hVal] at hb
  split_ifs at hb with hOne hTwo hThree
  · rw [List.mem_singleton.1 hb]
    have hNat : (UInt8.ofNat c.toNat).toNat = c.toNat := by
      simp
      omega
    refine ⟨fun hEq => h.1 ?_, fun hEq => h.2 ?_⟩
    · rw [← hNat, hEq]
      rfl
    · rw [← hNat, hEq]
      rfl
  · simp only [List.mem_cons, List.not_mem_nil, or_false] at hb
    rcases hb with rfl | rfl
    · exact hHigh _ _ (by omega) (by omega)
    · exact hHigh _ _ (by omega) (by omega)
  · simp only [List.mem_cons, List.not_mem_nil, or_false] at hb
    rcases hb with rfl | rfl | rfl
    · exact hHigh _ _ (by omega) (by omega)
    · exact hHigh _ _ (by omega) (by omega)
    · exact hHigh _ _ (by omega) (by omega)
  · simp only [List.mem_cons, List.not_mem_nil, or_false] at hb
    rcases hb with rfl | rfl | rfl | rfl
    · exact hHigh _ _ (by omega) (by omega)
    · exact hHigh _ _ (by omega) (by omega)
    · exact hHigh _ _ (by omega) (by omega)
    · exact hHigh _ _ (by omega) (by omega)

/-! ## Rounds -/

theorem readChars_plain {w : Text} (hPlain : ∀ b ∈ w, b ≠ 34 ∧ b ≠ 92) (fuel : Nat)
    (written rest : Text) :
    readChars (w.length + fuel) written (w ++ rest) = readChars fuel (written ++ w) rest := by
  induction w generalizing written with
  | nil => simp
  | cons b w ih =>
    have hb := hPlain b List.mem_cons_self
    have hFuel : (b :: w).length + fuel = (w.length + fuel) + 1 := by
      rw [List.length_cons]
      omega
    rw [hFuel, List.cons_append, readChars, if_neg hb.1, if_neg hb.2,
      ih (fun b' hb' => hPlain b' (List.mem_cons_of_mem _ hb')), List.append_assoc]
    rfl

theorem readChars_escape {text w rest : Text} (h : readEscChar text = some (w, rest)) (fuel : Nat)
    (written : Text) :
    readChars (fuel + 1) written (92 :: text) = readChars fuel (written ++ w) rest := by
  rw [readChars, if_neg (by decide), if_pos rfl, h]

theorem readEscChar_short {letter : UInt8} {n : Nat} (h : (letter, n) ∈ shortEscapes)
    (rest : Text) :
    readEscChar (letter :: rest) = some ([UInt8.ofNat n], rest) := by
  simp only [shortEscapes, List.mem_cons, Prod.mk.injEq, List.not_mem_nil, or_false] at h
  rcases h with ⟨rfl, rfl⟩ | ⟨rfl, rfl⟩ | ⟨rfl, rfl⟩ | ⟨rfl, rfl⟩ | ⟨rfl, rfl⟩ | ⟨rfl, rfl⟩ |
    ⟨rfl, rfl⟩ | ⟨rfl, rfl⟩
  all_goals rfl

/-- A character takes a number of rounds, of which it has at least as many bytes. -/
theorem readChars_piece (p : Piece) : ∃ n, n ≤ p.text.length ∧ ∀ fuel written rest,
    readChars (n + fuel) written (p.text ++ rest) = readChars fuel (written ++ p.bytes) rest := by
  cases p with
  | raw c h => exact ⟨_, Nat.le_refl _, readChars_plain (encode_plain h)⟩
  | short letter n h =>
    refine ⟨1, by simp [Piece.text], fun fuel written rest => ?_⟩
    rw [Nat.add_comm]
    exact readChars_escape (readEscChar_short h rest) fuel written
  | unit h hScalar =>
    refine ⟨1, by simp [Piece.text], fun fuel written rest => ?_⟩
    rw [Nat.add_comm]
    exact readChars_escape (readEscChar_unit h rest) fuel written
  | pair hi lo hHi hLo =>
    refine ⟨2, by simp [Piece.text], fun fuel written rest => ?_⟩
    have hText : (Piece.pair hi lo hHi hLo).text ++ rest =
        92 :: 117 :: (hi.text ++ 92 :: 117 :: (lo.text ++ rest)) := by simp [Piece.text]
    have hFuel : 2 + fuel = fuel + 1 + 1 := by omega
    rw [hText, hFuel, readChars_escape (readEscChar_unit hi _),
      readChars_escape (readEscChar_unit lo _), List.append_assoc]
    rfl

theorem readChars_pieces (ps : List Piece) : ∃ n, n ≤ (ps.flatMap Piece.text).length ∧
    ∀ fuel written rest, readChars (n + fuel) written (ps.flatMap Piece.text ++ rest) =
      readChars fuel (written ++ ps.flatMap Piece.bytes) rest := by
  induction ps with
  | nil => exact ⟨0, Nat.zero_le _, by simp⟩
  | cons p ps ih =>
    obtain ⟨n, hn, hFirst⟩ := readChars_piece p
    obtain ⟨m, hm, hRest⟩ := ih
    refine ⟨n + m, ?_, fun fuel written rest => ?_⟩
    · rw [List.flatMap_cons, List.length_append]
      omega
    · rw [List.flatMap_cons, List.append_assoc, Nat.add_assoc, hFirst, hRest, List.append_assoc]
      rfl

/-- A literal is read as the bytes of its characters. -/
theorem readAlloc_literal (ps : List Piece) (tmp : TmpBuf) (rest : Text) :
    ∃ tmp', jsonReadAllocString tmp (literalText ps ++ rest) =
      .ok (some (ps.flatMap Piece.bytes ++ [0]), tmp', rest) := by
  obtain ⟨n, hn, hRun⟩ := readChars_pieces ps
  have hChars : readChars ((ps.flatMap Piece.text ++ 34 :: rest).length + 1) []
      (ps.flatMap Piece.text ++ 34 :: rest) = ⟨ps.flatMap Piece.bytes, some rest⟩ := by
    have hFuel : ∃ m, (ps.flatMap Piece.text ++ 34 :: rest).length + 1 = n + (m + 1) := by
      refine ⟨(ps.flatMap Piece.text ++ 34 :: rest).length - n, ?_⟩
      rw [List.length_append]
      omega
    obtain ⟨m, hm⟩ := hFuel
    rw [hm, hRun, readChars, if_pos rfl, List.nil_append]
  exact jsonReadAllocString_eq tmp (by simp [literalText]; rfl) hChars

/-! ## What is denoted -/

/-- The bytes of a character are its UTF-8 sequence, if it is no pair. -/
theorem bytes_eq {p : Piece} (h : p.isPair = false) :
    p.bytes = String.utf8EncodeChar p.char := by
  cases p with
  | raw c hRaw => rfl
  | short letter n hShort =>
    simp only [shortEscapes, List.mem_cons, Prod.mk.injEq, List.not_mem_nil, or_false] at hShort
    rcases hShort with ⟨rfl, rfl⟩ | ⟨rfl, rfl⟩ | ⟨rfl, rfl⟩ | ⟨rfl, rfl⟩ | ⟨rfl, rfl⟩ | ⟨rfl, rfl⟩ |
      ⟨rfl, rfl⟩ | ⟨rfl, rfl⟩
    all_goals rfl
  | unit digits hScalar => exact utf8_eq hScalar digits.lt
  | pair hi lo hHi hLo => cases h

/-- A pair has six bytes instead of four. -/
theorem length_pair {p : Piece} (h : p.isPair = true) :
    p.bytes.length = (String.utf8EncodeChar p.char).length + 2 := by
  cases p with
  | pair hi lo hHi hLo =>
    have hSix : ∀ n, 0x800 ≤ n → (utf8 n).length = 3 := by
      intro n hn
      unfold utf8
      rw [if_neg (by omega), if_neg (by omega)]
      rfl
    have hValid : (pairValue hi.value lo.value).isValidChar := by
      refine Or.inr ⟨?_, ?_⟩ <;> unfold pairValue <;> omega
    have hChar : (Char.ofNat (pairValue hi.value lo.value)).val.toNat =
        pairValue hi.value lo.value := by
      rw [Char.ofNat, dif_pos hValid]
      rfl
    have hFour : (String.utf8EncodeChar (Char.ofNat (pairValue hi.value lo.value))).length = 4 := by
      unfold String.utf8EncodeChar
      simp only [hChar]
      rw [if_neg (by unfold pairValue; omega), if_neg (by unfold pairValue; omega),
        if_neg (by unfold pairValue; omega)]
      rfl
    show (utf8 hi.value ++ utf8 lo.value).length =
      (String.utf8EncodeChar (Char.ofNat (pairValue hi.value lo.value))).length + 2
    rw [hFour, List.length_append, hSix _ (by omega), hSix _ (by omega)]
  | _ => cases h

theorem literalUtf8_cons (p : Piece) (ps : List Piece) :
    literalUtf8 (p :: ps) = String.utf8EncodeChar p.char ++ literalUtf8 ps := by
  simp [literalUtf8]

theorem length_le_bytes (ps : List Piece) :
    (literalUtf8 ps).length ≤ (ps.flatMap Piece.bytes).length := by
  induction ps with
  | nil => exact Nat.le_refl _
  | cons p ps ih =>
    rw [literalUtf8_cons, List.flatMap_cons, List.length_append, List.length_append]
    cases hPair : p.isPair with
    | true =>
      have := length_pair hPair
      omega
    | false =>
      rw [bytes_eq hPair]
      omega

theorem bytes_eq_iff (ps : List Piece) :
    ps.flatMap Piece.bytes = literalUtf8 ps ↔ ∀ p ∈ ps, p.isPair = false := by
  induction ps with
  | nil => simp [literalUtf8]
  | cons p ps ih =>
    rw [literalUtf8_cons, List.flatMap_cons, List.forall_mem_cons, ← ih]
    cases hPair : p.isPair with
    | true =>
      refine ⟨fun h => ?_, fun h => Bool.noConfusion h.1⟩
      have hLength := congrArg List.length h
      have hLe := length_le_bytes ps
      have hMore := length_pair hPair
      rw [List.length_append, List.length_append] at hLength
      omega
    | false =>
      rw [bytes_eq hPair, List.append_cancel_left_eq]
      simp

/-- The UTF-8 encoding of the characters is returned exactly where none of them is written as a pair
of surrogates. -/
theorem unicode_read_iff (ps : List Piece) (tmp : TmpBuf) (rest : Text) :
    (∃ tmp', jsonReadAllocString tmp (literalText ps ++ rest) =
      .ok (some (literalUtf8 ps ++ [0]), tmp', rest) ∧
        ByteArray.IsValidUTF8 (literalUtf8 ps).toByteArray) ↔ ∀ p ∈ ps, p.isPair = false := by
  obtain ⟨tmp', hRun⟩ := readAlloc_literal ps tmp rest
  rw [hRun, ← bytes_eq_iff]
  constructor
  · rintro ⟨tmp'', hSame, -⟩
    have hBytes := congrArg Prod.fst (Except.ok.inj hSame)
    exact List.append_cancel_right (Option.some.inj hBytes)
  · intro h
    exact ⟨tmp', by rw [h], .intro (ps.map Piece.char) rfl⟩

/-- The digits D83D and DE00. -/
def high : Hex4 :=
  ⟨⟨13, by decide, true⟩, ⟨8, by decide, true⟩, ⟨3, by decide, true⟩, ⟨13, by decide, true⟩⟩

def low : Hex4 :=
  ⟨⟨13, by decide, true⟩, ⟨14, by decide, true⟩, ⟨0, by decide, true⟩, ⟨0, by decide, true⟩⟩

/-- A character of four bytes. -/
theorem not_unicode_read : ¬ ∀ (ps : List Piece) (tmp : TmpBuf) (rest : Text),
    ∃ tmp', jsonReadAllocString tmp (literalText ps ++ rest) =
      .ok (some (literalUtf8 ps ++ [0]), tmp', rest) ∧
        ByteArray.IsValidUTF8 (literalUtf8 ps).toByteArray := by
  intro hAll
  obtain ⟨ps, hPair⟩ : ∃ ps : List Piece, ps = [.pair high low (by decide) (by decide)] := ⟨_, rfl⟩
  obtain ⟨tmp', hRun⟩ := readAlloc_literal ps ⟨0, []⟩ [0]
  obtain ⟨tmp'', hSame, -⟩ := hAll ps ⟨0, []⟩ [0]
  rw [hRun] at hSame
  have hBytes := congrArg Prod.fst (Except.ok.inj hSame)
  have hNone := (bytes_eq_iff ps).1 (List.append_cancel_right (Option.some.inj hBytes))
  rw [hPair] at hNone
  exact Bool.noConfusion (hNone _ List.mem_cons_self)

end TcfAgent.JsonBuffers
