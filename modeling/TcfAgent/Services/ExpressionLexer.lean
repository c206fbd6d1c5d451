import TcfAgent.Lib.Loops
import TcfAgent.Services.ExpressionParser

/-!
# The loops of the scanner

`next_sy` of `services/expressions.c` once more, with the loops as they are written and with the
symbols that `nextSymbol` leaves to its environment: characters, strings, `$"…"`, `${…}` and
floating point numbers. `next_ch` stays at the zero that ends the text, so that every loop needs a
test of its own to stop there.
-/

namespace TcfAgent.Expressions.Lexer

open TcfAgent.JsonText TcfAgent.Lib TcfAgent.Lib.Program

/-! ## Characters -/

/-- The state is the text from `text_ch` on. -/
abbrev Scanner (α : Type) : Type := Program Text Message α

/-- `text_ch` -/
def textCh (t : Text) : UInt8 := t.headD 0

def peek : Scanner UInt8 := plain fun t => (.ok (textCh t), t)

def nextCh : Scanner Unit := Program.modify List.tail

/-- One character more, if it is this one. -/
def nextIf (c d : UInt8) : Scanner Bool := plain fun t =>
  if textCh t = c ∨ textCh t = d then (.ok true, t.tail) else (.ok false, t)

/-- `while (p(text_ch)) …` -/
def scanWhile {α : Type} (p : UInt8 → Bool) (f : α → UInt8 → α) (acc : α) : Scanner α :=
  loop (fun acc => do
    let ch ← peek
    if p ch then do
      nextCh
      return .inl (f acc ch)
    else return .inr acc) acc

/-- `next_hex`, `next_oct` and `next_dec` -/
def nextDigit (p : UInt8 → Bool) (value : UInt8 → Nat) (message : String) : Scanner Nat := do
  let ch ← peek
  nextCh
  if p ch then return value ch else raise (.other message)

def nextHex : Scanner Nat := nextDigit isHexDigit hexValue "Invalid hexadecimal number"

def nextOct : Scanner Nat :=
  nextDigit isOctDigit (fun c => c.toNat - 48) "Invalid octal number"

/-- What stands for itself after a `\`, and what does not. -/
def escapeVal (ch : UInt8) : Nat :=
  if ch = 110 then 10 else if ch = 116 then 9 else if ch = 118 then 11 else if ch = 98 then 8
  else if ch = 114 then 13 else if ch = 102 then 12 else if ch = 97 then 7 else ch.toNat

def nextCharVal : Scanner Nat := do
  let ch ← peek
  if ch = 0 then raise (.other "Unexpected end of expression")
  else if ch = 92 then do
    nextCh
    let ch ← peek
    if ch = 120 then do
      nextCh
      let a ← nextHex
      let b ← nextHex
      let c ← nextHex
      return a <<< 8 ||| b <<< 4 ||| c
    else if 48 ≤ ch && ch ≤ 51 then do
      let a ← nextOct
      let b ← nextOct
      let c ← nextOct
      return a <<< 6 ||| b <<< 3 ||| c
    else do
      nextCh
      return escapeVal ch
  else do
    nextCh
    return ch.toNat

/-! ## Strings -/

/-- An `int` in the first bytes of an element, low byte first. -/
def elementBytes (charSize n : Nat) : Text :=
  (List.range charSize).map fun i => UInt8.ofNat (n / 2 ^ (8 * i))

def copyChar (inQuotes : Bool) : Scanner Nat :=
  if inQuotes then nextCharVal
  else do
    let ch ← peek
    nextCh
    return ch.toNat

/-- `set_string_text_val`: copy `len` characters from `start` on, and a zero. -/
def setStringTextVal (start : Text) (len : Nat) (inQuotes : Bool) (charSize : Nat) :
    Scanner Text := do
  Program.modify fun _ => start
  let value ← loop (fun (acc : Nat × Text) =>
    if acc.1 < len then do
      let ch ← copyChar inQuotes
      return .inl (acc.1 + 1, acc.2 ++ elementBytes charSize ch)
    else return .inr acc.2) (0, [])
  return value ++ elementBytes charSize 0

/-- The number of characters before the quote. -/
def countQuoted : Scanner Nat :=
  loop (fun len => do
    let ch ← peek
    if ch = 34 then return .inr len
    else do
      let _ ← nextCharVal
      return .inl (len + 1)) 0

/-- The number of characters before the brace. -/
def countBraced : Scanner Nat :=
  loop (fun len => do
    let ch ← peek
    if ch = 125 then return .inr len
    else do
      nextCh
      return .inl (len + 1)) 0

/-! ## Floating point numbers -/

/-- What `str_to_double` computes its result from: `val` times a power of ten. -/
structure Decimal where
  negative : Bool
  val      : Nat
  exponent : Int
deriving DecidableEq, Repr

structure Mantissa where
  digits   : Nat := 0
  fraction : Int := 0
  val      : Nat := 0

/-- At most 18 digits are kept. -/
def Mantissa.digit (m : Mantissa) (c : UInt8) : Mantissa :=
  if m.digits < 18 then
    let val := m.val * 10 + (c.toNat - 48)
    { m with val := val, digits := if val ≠ 0 then m.digits + 1 else m.digits }
  else { m with fraction := m.fraction - 1 }

/-- A digit after the point. -/
def Mantissa.fractionDigit (m : Mantissa) (c : UInt8) : Mantissa :=
  if m.digits < 18 then { m.digit c with fraction := m.fraction + 1 } else m

/-- An `int`, which goes on with the lowest number after the highest one. -/
def toInt32 (n : Int) : Int := Int.bmod n (2 ^ 32)

def isSpace (c : UInt8) : Bool := c = 32 || (9 ≤ c && c ≤ 13)

/-- A sign; `+` is skipped. -/
def readSign : Scanner Bool := do
  let negative ← nextIf 45 45
  if negative then return true
  else do
    let _ ← nextIf 43 43
    return false

def readMantissa : Scanner Mantissa := do
  let m ← scanWhile isDigit Mantissa.digit {}
  let point ← nextIf 46 46
  if point then scanWhile isDigit Mantissa.fractionDigit m else return m

def readExponent : Scanner Int := do
  let found ← nextIf 69 101
  if found then do
    let negative ← readSign
    let n ← scanWhile isDigit (fun n c => toInt32 (n * 10 + (c.toNat - 48 : Nat))) 0
    return if negative then toInt32 (-n) else n
  else return 0

/-- The loop over the bits of the exponent, without the products. -/
def powers (n : Int) : Scanner Unit :=
  loop (fun n : Int => if n = 0 then return .inr ⟨⟩ else return .inl (n >>> (1 : Nat))) n

def strToDouble : Scanner Decimal := do
  scanWhile isSpace (fun _ _ => PUnit.unit) ⟨⟩
  let negative ← readSign
  let m ← readMantissa
  let e ← readExponent
  let exponent := toInt32 (e - m.fraction)
  powers (if exponent < 0 then toInt32 (-exponent) else exponent)
  return ⟨negative, m.val, exponent⟩

/-! ## Symbols -/

/-- `text_sy`, with `text_val` and `text_val_flags`. -/
inductive Lexeme where
  | sy (s : Sy)
  | char (wide : Bool) (v : Value)
  | string (wide : Bool) (value : Text)
  | quotedName (value : Text)
  | id (value : Text)
  | real (x : Decimal) (single long : Bool)
deriving DecidableEq, Repr

/-- `parse_fp_number`, at the first character of the number. -/
def parseFpNumber (start : Text) : Scanner Lexeme := do
  Program.modify fun _ => start
  let x ← strToDouble
  let single ← nextIf 102 70
  if single then return .real x true false
  else do
    let long ← nextIf 108 76
    return .real x false long

def parseCharValue (l : Bool) : Scanner Lexeme := do
  let n ← nextCharVal
  let v : Value := ⟨if l then .cardinal else .integer, none, .s1, 0, true⟩
  let size : Size := if l then (if n ≤ 0xffff then .s2 else .s4) else if n ≤ 0x7f then .s1 else .s2
  let closed ← nextIf 39 39
  if closed then return .char l (v.setInt size n) else raise (.other "Missing 'single quote'")

/-- The characters up to a quote, and the quote. -/
def parseQuoted (charSize : Nat) : Scanner Text := do
  let start ← Program.get
  let len ← countQuoted
  let value ← setStringTextVal start len true charSize
  nextCh
  return value

def parseStringValue (l : Bool) : Scanner Lexeme := do
  let value ← parseQuoted (if l then 4 else 1)
  return .string l value

/-- `$"…"`, after the dollar. -/
def parseQuotedName : Scanner Lexeme := do
  let _ ← nextCharVal
  let value ← parseQuoted 1
  return .quotedName value

/-- `${…}`, after the dollar. -/
def parseId : Scanner Lexeme := do
  nextCh
  let start ← Program.get
  let len ← countBraced
  let value ← setStringTextVal start len false 1
  nextCh
  return .id value

def scanSuffix (flags : Flags) : Scanner Flags :=
  scanWhile isSuffix (fun flags c =>
    if c = 108 || c = 76 then { flags with l := true } else { flags with u := true }) flags

/-- One digit more, in 64 bits. -/
def addDigit (base : Nat) (digit : UInt8 → Nat) (n : Nat) (c : UInt8) : Nat :=
  (n * base + digit c) % 2 ^ 64

/-- A number that starts with 0. -/
def parseZero (start : Text) : Scanner Lexeme := do
  let text ← Program.get
  if isReal text then parseFpNumber start
  else do
    let hex ← nextIf 120 120
    if hex then do
      let n ← scanWhile isHexDigit (addDigit 16 hexValue) 0
      let flags ← scanSuffix { x := true }
      return .sy (.val { textVal .cardinal n with size := sizeFor n } flags)
    else do
      let n ← scanWhile isOctDigit (fun (acc : Nat × Bool) c =>
        (addDigit 8 (fun c => c.toNat - 48) acc.1 c, true)) (0, false)
      let flags ← scanSuffix (if n.2 then { x := true } else {})
      return .sy (.val { textVal (if n.2 then .cardinal else .integer) n.1 with
        size := sizeFor n.1 } flags)

/-- A decimal number, whose first digit is `ch`. -/
def parseDecimal (ch : UInt8) (start : Text) : Scanner Lexeme := do
  let n ← scanWhile isDigit (addDigit 10 fun c => c.toNat - 48) (ch.toNat - 48)
  let text ← Program.get
  if isReal text then parseFpNumber start
  else do
    let flags ← scanSuffix {}
    return .sy (.val (textVal (if flags.u then .cardinal else .integer) n) flags)

/-- A name, whose first character is `ch`. -/
def parseName (start : Text) : Scanner Lexeme := do
  let len ← scanWhile isNameCharacter (fun len _ => len + 1) 1
  let value ← setStringTextVal start len false 1
  let name := value.takeWhile (· ≠ 0)
  return .sy (if name = ascii "sizeof" then .sizeof else .name name)

/-- Symbols of one to three characters, or none at all: there are no loops for them. -/
def parseSign (ch : UInt8) : Scanner Lexeme := plain fun text =>
  match nextSymbol noSymbols ch text with
  | .ok (sy, rest) => (.ok (.sy sy), rest)
  | .error message => (.error message, text)

/-- `next_sy`, for a character that is not white space and not the end. -/
def nextLexeme (ch : UInt8) : Scanner Lexeme := do
  let text ← Program.get
  let start := ch :: text
  if ch = 39 then parseCharValue false
  else if ch = 34 then parseStringValue false
  else if ch = 48 then parseZero start
  else if isDigit ch then parseDecimal ch start
  else if ch = 36 ∧ textCh text = 34 then parseQuotedName
  else if ch = 36 ∧ textCh text = 123 then parseId
  else if ch = 76 ∧ textCh text = 39 then do
    nextCh
    parseCharValue true
  else if ch = 76 ∧ textCh text = 34 then do
    nextCh
    parseStringValue true
  else if isNameCharacter ch then parseName start
  else parseSign ch

/-- `next_sy` -/
def nextSy : Scanner Lexeme := do
  scanWhile isBlank (fun _ _ => PUnit.unit) ⟨⟩
  let ch ← peek
  if ch = 0 then return .sy .eof
  else do
    nextCh
    nextLexeme ch

/-- One symbol more, if it is not the end. -/
def nextToken (lexemes : List Lexeme) : Scanner (List Lexeme ⊕ List Lexeme) := do
  let lexeme ← nextSy
  if lexeme = .sy .eof then return .inr lexemes else return .inl (lexemes ++ [lexeme])

/-- The symbols of a text, up to its end. -/
def tokenize : Scanner (List Lexeme) := loop nextToken []

example : (tokenize.run 40 (ascii "a + L\"b\" $\x7bc\x7d")).map Prod.fst = some (.ok
    [.sy (.name [97]), .sy (.char 43), .string true [98, 0, 0, 0, 0, 0, 0, 0], .id [99, 0]]) := by
  decide

end TcfAgent.Expressions.Lexer
