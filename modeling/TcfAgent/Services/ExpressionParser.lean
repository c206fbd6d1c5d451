import TcfAgent.Services.Expressions

/-!
# The scanner and the parser of expressions

`services/expressions.c`: every level of the grammar takes the level above it and goes on while
it finds one of its operators. In `MODE_SKIP` operators are not applied, so that an operand which
is not wanted can only be rejected for its form.
-/

namespace TcfAgent.Expressions

open TcfAgent.JsonText

/-! ## Scanner -/

def isBlank (c : UInt8) : Bool := c = 32 || c = 13 || c = 10 || c = 9

def isNameCharacter (c : UInt8) : Bool :=
  (65 ≤ c && c ≤ 90) || (97 ≤ c && c ≤ 122) || isDigit c || c = 95 || c = 36 || c = 64

def isOctDigit (c : UInt8) : Bool := 48 ≤ c && c ≤ 55

def isHexDigit (c : UInt8) : Bool := isDigit c || (65 ≤ c && c ≤ 70) || (97 ≤ c && c ≤ 102)

/-- `next_hex` -/
def hexValue (c : UInt8) : Nat :=
  if isDigit c then c.toNat - 48
  else if 65 ≤ c && c ≤ 70 then c.toNat - 65 + 10
  else c.toNat - 97 + 10

/-- A number written in a base, in 64 bits. -/
def digitsIn (base : Nat) (digit : UInt8 → Nat) (t : Text) : Nat :=
  t.foldl (fun n c => n * base + digit c) 0 % 2 ^ 64

def isSuffix (c : UInt8) : Bool := c = 108 || c = 76 || c = 117 || c = 85

def suffixFlags (flags : Flags) (t : Text) : Flags :=
  { flags with
    l := flags.l || t.any fun c => c = 108 || c = 76
    u := flags.u || t.any fun c => c = 117 || c = 85 }

/-- The size of a number that is at most `0xff`, `0xffff` or `0xffffffff`, or of one with a bit
less. -/
def sizeFor (n : Nat) : Size :=
  if n < 2 ^ 8 then .s1 else if n < 2 ^ 16 then .s2 else if n < 2 ^ 32 then .s4 else .s8

def textVal (typeClass : TypeClass) (n : Nat) : Value where
  typeClass := typeClass
  type := none
  size := if typeClass = .integer then sizeFor (2 * n) else sizeFor n
  bits := n
  constant := true

/-- A floating point number goes on like this. -/
def isReal (text : Text) : Bool := text.head?.any fun c => c ∈ [46, 101, 69, 102, 70]

/-- A symbol, or a longer one when a character follows. -/
def ifNext (c : UInt8) (longer : Text → Sy × Text) (short : Sy × Text) (text : Text) : Sy × Text :=
  match text with
  | [] => short
  | d :: rest => if d = c then longer rest else short

section

variable (env : Env)

/-- A number that starts with 0: its class, its flags and its digits. -/
def scanZero (text : Text) : Sy × Text :=
  let number (typeClass : TypeClass) (size : Size) (n : Nat) (flags : Flags) (rest : Text) :=
    (Sy.val { textVal typeClass n with size := size } (suffixFlags flags (rest.takeWhile isSuffix)),
      rest.dropWhile isSuffix)
  if text.head? = some 120 then
    let text := text.tail
    let n := digitsIn 16 hexValue (text.takeWhile isHexDigit)
    number .cardinal (sizeFor n) n { x := true } (text.dropWhile isHexDigit)
  else
    let digits := text.takeWhile isOctDigit
    let n := digitsIn 8 (fun c => c.toNat - 48) digits
    if digits = [] then number .integer (sizeFor n) n {} text
    else number .cardinal (sizeFor n) n { x := true } (text.dropWhile isOctDigit)

/-- A decimal number. -/
def scanDecimal (text : Text) : Sy × Text :=
  let n := digitsIn 10 (fun c => c.toNat - 48) (text.takeWhile isDigit)
  let rest := text.dropWhile isDigit
  let flags := suffixFlags {} (rest.takeWhile isSuffix)
  (.val (textVal (if flags.u then .cardinal else .integer) n) flags, rest.dropWhile isSuffix)

/-- `next_sy`, for a character that is not white space. -/
def nextSymbol (ch : UInt8) (text : Text) : Except Message (Sy × Text) :=
  let same := (Sy.char ch, text)
  -- ( ) { } ~ [ ] ; ? ,
  if ch ∈ [40, 41, 123, 125, 126, 91, 93, 59, 63, 44] then .ok same
  else if ch = 46 then .ok (ifNext 42 (.pmD, ·) same text)
  else if ch = 58 then .ok (ifNext 58 (.scope, ·) same text)
  else if ch = 45 then
    .ok (ifNext 62 (fun text => ifNext 42 (.pmR, ·) (.ref, text) text)
      (ifNext 45 (.dec, ·) (ifNext 61 (.aSub, ·) same text) text) text)
  else if ch = 43 then .ok (ifNext 43 (.inc, ·) (ifNext 61 (.aAdd, ·) same text) text)
  else if ch = 60 then
    .ok (ifNext 60 (fun text => ifNext 61 (.aShl, ·) (.shl, text) text)
      (ifNext 61 (.leq, ·) same text) text)
  else if ch = 62 then
    .ok (ifNext 62 (fun text => ifNext 61 (.aShr, ·) (.shr, text) text)
      (ifNext 61 (.geq, ·) same text) text)
  else if ch = 61 then .ok (ifNext 61 (.equ, ·) same text)
  else if ch = 33 then .ok (ifNext 61 (.neq, ·) same text)
  else if ch = 38 then .ok (ifNext 38 (.and, ·) (ifNext 61 (.aAnd, ·) same text) text)
  else if ch = 124 then .ok (ifNext 124 (.or, ·) (ifNext 61 (.aOr, ·) same text) text)
  else if ch = 42 then .ok (ifNext 61 (.aMul, ·) same text)
  -- the assignments are written with a bar
  else if ch = 47 then .ok (ifNext 124 (.aDiv, ·) same text)
  else if ch = 37 then .ok (ifNext 124 (.aMod, ·) same text)
  else if ch = 94 then .ok (ifNext 61 (.aXor, ·) same text)
  else if ch = 48 then
    if isReal text then env.otherSymbol ch text else .ok (scanZero text)
  else if isDigit ch then
    if isReal (text.dropWhile isDigit) then env.otherSymbol ch text else .ok
      (scanDecimal (ch :: text))
  else if ch ∈ [39, 34] ∨ (ch = 36 ∧ text.head?.any fun c => c ∈ [34, 123]) ∨
      (ch = 76 ∧ text.head?.any fun c => c ∈ [39, 34]) then
    env.otherSymbol ch text
  else if isNameCharacter ch then
    let name := ch :: text.takeWhile isNameCharacter
    .ok (if name = ascii "sizeof" then .sizeof else .name name, text.dropWhile isNameCharacter)
  else .error .illegalCharacter

/-- `next_sy` -/
def nextSy : Text → Except Error State
  | [] => .ok ⟨.eof, [], []⟩
  | ch :: text =>
    if isBlank ch then nextSy text
    else match nextSymbol env ch text with
      | .ok (sy, rest) => .ok ⟨sy, ch :: text, rest⟩
      | .error message => .error ⟨message, ch :: text⟩

def State.next (s : State) : Except Error State := nextSy env s.text

def State.fail {α : Type} (s : State) (message : Message) : Except Error α :=
  .error ⟨message, s.start⟩

/-! ## Numbers -/

/-- The largest number of a type, as the code computes it. -/
def typeLimit (typeClass : TypeClass) (size : Size) : Nat :=
  if typeClass = .cardinal then
    if size = .s8 then ((env.shiftOver - 1) % 2 ^ 64).toNat else 2 ^ size.bits - 1
  else 2 ^ (size.bits - 1) - 1

/-- The type, when it is there and holds the number. -/
def fits (n : Nat) (name : String) (typeClass : TypeClass) : Option (String × TypeClass × Size) :=
  match env.stdSize name typeClass with
  | some size => if n ≤ typeLimit env typeClass size then some (name, typeClass, size) else none
  | none => none

/-- What `primary_expression` makes of a number. -/
def literalValue (v : Value) (flags : Flags) : Value :=
  let n := toUns .normal v
  let found :=
    (if !flags.l && !flags.u then fits env n "int" .integer else none) <|>
    (if !flags.l && (flags.x || flags.u) then fits env n "unsigned int" .cardinal else none) <|>
    (if !flags.u then fits env n "long int" .integer else none) <|>
    fits env n "long unsigned int" .cardinal
  match found with
  | some (name, typeClass, size) =>
    let v := { v with type := some name, typeClass := typeClass }
    if size ≠ v.size then v.setInt size n else v
  | none => v

/-! ## Levels -/

/-- Expressions with commas between them; the value is the last one. -/
def commaList (expression : Parser) : (fuel : Nat) → Parser
  | 0 => fun _ s => s.fail .fuel
  | fuel + 1 => fun mode s => do
    let (v, s) ← expression mode s
    if s.sy = .char 44 then
      let s ← s.next env
      commaList expression fuel mode s
    else .ok (v, s)

def primaryExpression (expression : Parser) (fuel : Nat) : Parser := fun mode s =>
  match s.sy with
  | .char c =>
    if c = 40 then do
      let s ← s.next env
      let (v, s) ← commaList env expression fuel mode s
      if s.sy ≠ .char 41 then s.fail .missingParen
      else do
        let s ← s.next env
        .ok (v, s)
    else s.fail .syntaxError
  | .val n flags => do
    let s ← s.next env
    .ok (literalValue env n flags, s)
  | .scope | .name _ | .other _ => env.otherPrimary mode s
  | _ => s.fail .syntaxError

def isPostfix (sy : Sy) : Bool := sy = .char 46 || sy = .char 91 || sy = .ref || sy = .char 40

def postfixLoop : (fuel : Nat) → Value → Parser
  | 0, _ => fun _ s => s.fail .fuel
  | fuel + 1, v => fun mode s =>
    if isPostfix s.sy then do
      let (v, s) ← env.postfixOp v mode s
      postfixLoop fuel v mode s
    else .ok (v, s)

def postfixExpression (expression : Parser) (fuel : Nat) : Parser := fun mode s => do
  let (v, s) ← primaryExpression env expression fuel mode s
  postfixLoop env fuel v mode s

def pmLoop : (fuel : Nat) → Value → Parser
  | 0, _ => fun _ s => s.fail .fuel
  | fuel + 1, v => fun mode s =>
    if s.sy = .pmD ∨ s.sy = .pmR then do
      let (v, s) ← env.pmOp v mode s
      pmLoop fuel v mode s
    else .ok (v, s)

def pmExpression (unary : Parser) (fuel : Nat) : Parser := fun mode s => do
  let (v, s) ← unary mode s
  pmLoop env fuel v mode s

/-- What the levels of operators with two operands have of their own. -/
structure Level where
  isOp      : Sy → Bool
  rightMode : Mode → Value → Mode
  apply     : Mode → Sy → Value → Value → Except Message Value

/-- The loop of a level, with the value of the left operand. -/
def levelLoop (l : Level) (operand : Parser) : (fuel : Nat) → Value → Parser
  | 0, _ => fun _ s => s.fail .fuel
  | fuel + 1, v => fun mode s =>
    if l.isOp s.sy then do
      let s' ← s.next env
      let (x, s') ← operand (l.rightMode mode v) s'
      match l.apply mode s.sy v x with
      | .ok v => levelLoop l operand fuel v mode s'
      | .error message => s'.fail message
    else .ok (v, s)

def levelExpression (l : Level) (operand : Parser) (fuel : Nat) : Parser := fun mode s => do
  let (v, s) ← operand mode s
  levelLoop env l operand fuel v mode s

/-- A level whose operators are applied to both operands. -/
def strict (isOp : Sy → Bool) (apply : Mode → Sy → Value → Value → Except Message Value) :
    Level where
  isOp := isOp
  rightMode mode _ := mode
  apply mode sy v x := if mode ≠ .skip then apply mode sy v x else .ok v

/-- `x`, which is not constant when the operand before it is not. -/
def afterOperand (v x : Value) : Value := if !v.constant then { x with constant := false } else x

/-- A level whose right operand is wanted when the left one is `wanted`. -/
def lazy (op : Sy) (wanted : Bool) : Level where
  isOp sy := sy = op
  rightMode mode v := if toBoolean mode v = wanted then mode else .skip
  apply mode _ v x := .ok (if toBoolean mode v = wanted then afterOperand v x else v)

def multiplicative : Level :=
  strict (fun sy => sy = .char 42 || sy = .char 47 || sy = .char 37) opMultiplicative

def additive : Level := strict (fun sy => sy = .char 43 || sy = .char 45) opAdditive

def shifts : Level := strict (fun sy => sy = .shl || sy = .shr) opShift

def relational : Level :=
  strict (fun sy => sy = .char 60 || sy = .char 62 || sy = .leq || sy = .geq) (opRelational env)

def equality : Level := strict (fun sy => sy = .equ || sy = .neq) (opEquality env)

def bitAnd : Level := strict (fun sy => sy = .char 38) (opBits (· &&& ·))

def exclusiveOr : Level := strict (fun sy => sy = .char 94) (opBits (· ^^^ ·))

def inclusiveOr : Level := strict (fun sy => sy = .char 124) (opBits (· ||| ·))

def logicalAnd : Level := lazy .and true

def logicalOr : Level := lazy .or false

section

variable (unary : Parser) (fuel : Nat)

def multiplicativeExpression : Parser :=
  levelExpression env multiplicative (pmExpression env unary fuel) fuel

def additiveExpression : Parser :=
  levelExpression env additive (multiplicativeExpression env unary fuel) fuel

def shiftExpression : Parser :=
  levelExpression env shifts (additiveExpression env unary fuel) fuel

def relationalExpression : Parser :=
  levelExpression env (relational env) (shiftExpression env unary fuel) fuel

def equalityExpression : Parser :=
  levelExpression env (equality env) (relationalExpression env unary fuel) fuel

def andExpression : Parser := levelExpression env bitAnd (equalityExpression env unary fuel) fuel

def exclusiveOrExpression : Parser :=
  levelExpression env exclusiveOr (andExpression env unary fuel) fuel

def inclusiveOrExpression : Parser :=
  levelExpression env inclusiveOr (exclusiveOrExpression env unary fuel) fuel

def logicalAndExpression : Parser :=
  levelExpression env logicalAnd (inclusiveOrExpression env unary fuel) fuel

def logicalOrExpression : Parser :=
  levelExpression env logicalOr (logicalAndExpression env unary fuel) fuel

end

/-! ## The recursive levels -/

/-- An operator with one operand, in the modes in which it is applied. -/
def applyUnary (f : Mode → Value → Value) (mode : Mode) (v : Value) : Value :=
  if mode ≠ .skip then f mode v else v

mutual

/-- `lazy_unary_expression`; `unary_expression` adds nothing for numbers. -/
def unaryExpression : (fuel : Nat) → Parser
  | 0 => fun _ s => s.fail .fuel
  | fuel + 1 => fun mode s =>
    match s.sy with
    | .sizeof => env.otherUnary mode s
    | .char c =>
      if c = 42 ∨ c = 38 then env.otherUnary mode s
      else if c = 43 then do
        let s ← s.next env
        unaryExpression fuel mode s
      else if c = 45 then do
        let s ← s.next env
        let (v, s) ← unaryExpression fuel mode s
        .ok (applyUnary (opMinus env) mode v, s)
      else if c = 33 then do
        let s ← s.next env
        let (v, s) ← unaryExpression fuel mode s
        .ok (applyUnary (opNot env) mode v, s)
      else if c = 126 then do
        let s ← s.next env
        match s.sy with
        | .name _ => env.otherUnary mode s
        | _ => do
          let (v, s) ← unaryExpression fuel mode s
          .ok (applyUnary opComplement mode v, s)
      else if c = 40 then do
        let inner ← s.next env
        let cast ← match inner.sy with
          | .name _ | .other _ => env.typeCast mode inner
          | _ => .ok none
        match cast with
        | some r => .ok r
        | none => do
          -- the parenthesis is scanned once more
          let s ← nextSy env s.start
          postfixExpression env (conditionalExpression fuel) fuel mode s
      else postfixExpression env (conditionalExpression fuel) fuel mode s
    | _ => postfixExpression env (conditionalExpression fuel) fuel mode s

/-- `conditional_expression`, which is also `expression`. -/
def conditionalExpression : (fuel : Nat) → Parser
  | 0 => fun _ s => s.fail .fuel
  | fuel + 1 => fun mode s => do
    let (v, s) ← logicalOrExpression env (unaryExpression fuel) fuel mode s
    if s.sy = .char 63 then
      let b := toBoolean mode v
      let s ← s.next env
      let (x, s) ← conditionalExpression fuel (if b then mode else .skip) s
      if s.sy ≠ .char 58 then s.fail .missingColon
      else
        let s ← s.next env
        let (y, s) ← conditionalExpression fuel (if b then .skip else mode) s
        .ok (afterOperand v (if b then x else y), s)
    else .ok (v, s)

end

/-- Every level of nesting takes a character. -/
def fuelFor (text : Text) : Nat := 5 * text.length + 1

/-- `evaluate_script`, in `MODE_NORMAL` -/
def evaluateExpression (text : Text) : Except Error Value :=
  if text = [] then .error ⟨.emptyExpression, []⟩
  else do
    let s ← nextSy env text
    let (v, s) ← commaList env (conditionalExpression env (fuelFor text)) (fuelFor text) .normal s
    if s.sy ≠ .eof then s.fail .illegalEnd
    else .ok v

end

/-- A symbols service without types, and no symbols but the modelled ones. -/
def noSymbols : Env where
  stdSize _ _ := none
  wordSize := .s8
  shiftOver := 0
  otherSymbol _ _ := .error .illegalCharacter
  otherUnary _ s := s.fail .syntaxError
  typeCast _ _ := .ok none
  otherPrimary _ s := s.fail .syntaxError
  postfixOp _ _ s := s.fail .syntaxError
  pmOp _ _ s := s.fail .syntaxError

end TcfAgent.Expressions
