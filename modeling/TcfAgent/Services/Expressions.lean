import TcfAgent.Framework.JsonText

/-!
# Expressions

`services/expressions.c`: the scanner, the recursive descent parser, which evaluates as it goes,
and the operators on whole numbers. Identifiers, strings, characters, floating point numbers,
type casts and the operators that work on them are parameters (`Env`), and so is what C leaves
undefined.

A text is what is left of the expression; at its end `next_ch` stays at the zero.
-/

namespace TcfAgent.Expressions

open TcfAgent.JsonText

/-! ## Values -/

/-- The sizes that `set_int_value` accepts. -/
inductive Size where
  | s1 | s2 | s4 | s8
deriving DecidableEq, Repr

def Size.bits : Size → Nat
  | .s1 => 8
  | .s2 => 16
  | .s4 => 32
  | .s8 => 64

/-- The type classes of whole numbers; `is_number` and `is_whole_number` hold for them. -/
inductive TypeClass where
  | integer | cardinal | enumeration
deriving DecidableEq, Repr

/-- `Value`, for a whole number in the byte order of the host: its bytes are a number, its type
is one that `get_std_type` finds. -/
structure Value where
  typeClass : TypeClass
  type      : Option String
  size      : Size
  bits      : Nat
  constant  : Bool
deriving DecidableEq, Repr

/-- Evaluate, find the type only, or skip. -/
inductive Mode where
  | normal | type | skip
deriving DecidableEq, Repr

/-- The texts of errors, without the column. -/
inductive Message where
  | emptyExpression | illegalCharacter | syntaxError | missingParen | missingColon | illegalEnd
  | dividingByZero | other (text : String) | fuel
  /-- No message: the code runs into an operation that C does not define. -/
  | undefined
deriving DecidableEq, Repr

def Message.text : Message → String
  | .emptyExpression => "Empty expression"
  | .illegalCharacter => "Illegal character"
  | .syntaxError => "Syntax error"
  | .missingParen => "Missing ')'"
  | .missingColon => "Missing ':'"
  | .illegalEnd => "Illegal characters at the end of expression"
  | .dividingByZero => "Dividing by zero"
  | .other text => text
  | .fuel | .undefined => ""

structure Flags where
  x : Bool := false
  u : Bool := false
  l : Bool := false
deriving DecidableEq, Repr

/-- `text_sy`, with `text_val` and `text_val_flags` for a number. -/
inductive Sy where
  | eof | char (c :
      UInt8) | leq | geq | equ | neq | and | or | shl | shr | ref | dec | inc | aSub | aAdd
  | aShl | aShr | aOr | aXor | aAnd | aMul | aDiv | aMod | sizeof | name (t : Text) | scope | pmD
  | pmR | val (v : Value) (flags : Flags) | other (n : Nat)
deriving DecidableEq, Repr

/-- The symbol, the text from `sy_pos` on and the text from `text_ch` on. -/
structure State where
  sy    : Sy
  start : Text
  text  : Text
deriving DecidableEq, Repr

/-- A message, and the text from `sy_pos` on, which gives the column. -/
structure Error where
  message : Message
  start   : Text
deriving DecidableEq, Repr

abbrev Parser := Mode → State → Except Error (Value × State)

structure Env where
  /-- `get_std_type`, with the class that the type has to have. -/
  stdSize       : String → TypeClass → Option Size
  wordSize      : Size
  /-- `1 << 64`, from which `primary_expression` makes the largest number of a type. -/
  shiftOver     : Int
  /-- Symbols that are not modelled, from their first character on. -/
  otherSymbol   : UInt8 → Text → Except Message (Sy × Text)
  /-- `*`, `&` and `sizeof`. -/
  otherUnary    : Parser
  /-- A type cast, after the left parenthesis; `none` when no type name is there. -/
  typeCast      : Mode → State → Except Error (Option (Value × State))
  /-- Names and IDs. -/
  otherPrimary  : Parser
  /-- `.`, `[`, `->` and `(`. -/
  postfixOp     : Value → Parser
  /-- `.*` and `->*` -/
  pmOp          : Value → Parser

/-! ## Conversions -/

def Value.setInt (v : Value) (size : Size) (n : Int) : Value :=
  { v with size := size, bits := (n % 2 ^ size.bits).toNat }

/-- `to_int` -/
def toInt (mode : Mode) (v : Value) : Int :=
  if mode ≠ .normal then 0
  else match v.typeClass with
    | .cardinal => Int.bmod v.bits (2 ^ 64)
    | .integer | .enumeration => Int.bmod v.bits (2 ^ v.size.bits)

/-- `to_uns` -/
def toUns (mode : Mode) (v : Value) : Nat :=
  if mode ≠ .normal then 0
  else match v.typeClass with
    | .cardinal => v.bits
    | .integer | .enumeration => (Int.bmod v.bits (2 ^ v.size.bits) % 2 ^ 64).toNat

/-- `to_boolean` -/
def toBoolean (mode : Mode) (v : Value) : Bool := toInt mode v ≠ 0

section

variable (env : Env)

/-- `set_bool_value` -/
def setBoolValue (v : Value) (b : Bool) : Value :=
  match env.stdSize "bool" .enumeration with
  | some size => { v.setInt size b.toInt with typeClass := .enumeration, type := some "bool" }
  | none =>
    match env.stdSize "int" .integer with
    | some size => { v.setInt size b.toInt with typeClass := .integer, type := some "int" }
    | none => { v.setInt env.wordSize b.toInt with typeClass := .integer, type := none }

/-! ## Operators -/

def opMinus (mode : Mode) (v : Value) : Value :=
  match v.typeClass with
  | .cardinal => v
  | .integer => v.setInt v.size (-toInt mode v)
  | .enumeration =>
    { v.setInt env.wordSize (-toInt mode v) with typeClass := .integer, type := none }

def opNot (mode : Mode) (v : Value) : Value := setBoolValue env v (toInt mode v = 0)

def opComplement (mode : Mode) (v : Value) : Value := v.setInt v.size (-toInt mode v - 1)

/-- What an operator with two operands leaves in `v`. -/
def setResult (v x : Value) (typeClass : TypeClass) (n : Int) : Value :=
  { v.setInt .s8 n with
    typeClass := typeClass
    type := none
    constant := v.constant && x.constant }

def isCardinal (v : Value) : Bool := v.typeClass = .cardinal

/-- `*`, `/` and `%`. C has no quotient and no remainder of `INT64_MIN` and -1. -/
def opMultiplicative (mode : Mode) (sy : Sy) (v x : Value) : Except Message Value :=
  if isCardinal v || isCardinal x then
    if mode = .normal then
      let a := toUns mode v
      let b := toUns mode x
      if sy ≠ .char 42 ∧ b = 0 then .error .dividingByZero
      else
        let value := if sy = .char 42 then a * b else if sy = .char 47 then a / b else a % b
        .ok (setResult v x .cardinal value)
    else .ok (setResult v x .cardinal 0)
  else if mode = .normal then
    let a := toInt mode v
    let b := toInt mode x
    if sy ≠ .char 42 ∧ b = 0 then .error .dividingByZero
    else if sy ≠ .char 42 ∧ a = -2 ^ 63 ∧ b = -1 then .error .undefined
    else
      let value :=
        if sy = .char 42 then a * b else if sy = .char 47 then Int.tdiv a b else Int.tmod a b
      .ok (setResult v x .integer value)
  else .ok (setResult v x .integer 0)

/-- `+` and `-` -/
def opAdditive (mode : Mode) (sy : Sy) (v x : Value) : Except Message Value :=
  if isCardinal v || isCardinal x then
    let a : Int := toUns mode v
    let b : Int := toUns mode x
    .ok (setResult v x .cardinal (if sy = .char 43 then a + b else a - b))
  else
    let a := toInt mode v
    let b := toInt mode x
    .ok (setResult v x .integer (if sy = .char 43 then a + b else a - b))

/-- A shift to the left or to the right, of a signed or unsigned number; C has none by 64 and
more. -/
def shift (left : Bool) (a count : Int) : Except Message Int :=
  if 64 ≤ count then .error .undefined
  else .ok (if left then a * 2 ^ count.toNat else a / 2 ^ count.toNat)

/-- `<<` and `>>`; a negative count shifts the other way. -/
def opShift (mode : Mode) (sy : Sy) (v x : Value) : Except Message Value :=
  let typeClass := if isCardinal v then .cardinal else .integer
  let a : Int := if isCardinal v then toUns mode v else toInt mode v
  let left : Bool := sy = .shl
  let value :=
    if ¬ isCardinal x ∧ toInt mode x < 0 then shift (!left) a (-toInt mode x)
    else shift left a (toUns mode x)
  value.map (setResult v x typeClass)

def compare (sy : Sy) (a b : Int) : Bool :=
  if sy = .char 60 then a < b
  else if sy = .char 62 then a > b
  else if sy = .leq then a ≤ b
  else a ≥ b

/-- `<`, `>`, `<=` and `>=` -/
def opRelational (mode : Mode) (sy : Sy) (v x : Value) : Except Message Value :=
  let value :=
    if isCardinal v || isCardinal x then compare sy (toUns mode v) (toUns mode x)
    else compare sy (toInt mode v) (toInt mode x)
  .ok (setBoolValue env { v with constant := v.constant && x.constant }
    (mode = .normal && value))

/-- `==` and `!=` -/
def opEquality (mode : Mode) (sy : Sy) (v x : Value) : Except Message Value :=
  let value : Bool := toInt mode v = toInt mode x
  let value := if sy = .neq then !value else value
  .ok (setBoolValue env { v with constant := v.constant && x.constant }
    (mode = .normal && value))

/-- `&`, `^` and `|` -/
def opBits (f : Nat → Nat → Nat) (mode : Mode) (_ : Sy) (v x : Value) : Except Message Value :=
  if isCardinal v || isCardinal x then
    let v := { v with typeClass := .cardinal }
    let value := f (toUns mode v) (toUns mode x)
    .ok (setResult v x .cardinal (if mode = .normal then value else 0))
  else
    let v := { v with typeClass := .integer }
    let value := f (toInt mode v % 2 ^ 64).toNat (toInt mode x % 2 ^ 64).toNat
    .ok (setResult v x .integer (if mode = .normal then value else 0))

end

end TcfAgent.Expressions
