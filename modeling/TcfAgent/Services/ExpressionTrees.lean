import TcfAgent.Services.ExpressionParser

/-!
# Expression trees

What expressions mean, as trees, and how C writes them: with the parentheses that its grammar
requires and no others, and with white space between the symbols.
-/

namespace TcfAgent.Expressions

open TcfAgent.JsonText

/-! ## Literals -/

inductive Suffix where
  | u | bigU | l | bigL
deriving DecidableEq, Repr

def Suffix.char : Suffix → UInt8
  | .u => 117
  | .bigU => 85
  | .l => 108
  | .bigL => 76

/-- The integer literals: decimal ones, whose first digit is one more than `first`, octal ones
after a 0, and hexadecimal ones after `0x` or `0X`, in letters of either case. -/
inductive Literal where
  | decimal (first : Fin 9) (digits : List (Fin 10)) (suffix : List Suffix)
  | octal (digits : List (Fin 8)) (suffix : List Suffix)
  | hex (upper : Bool) (digits : List (Fin 16 × Bool)) (suffix : List Suffix)
deriving DecidableEq, Repr

def digitChar (n : Nat) : UInt8 := UInt8.ofNat (48 + n)

def hexChar (d : Fin 16 × Bool) : UInt8 :=
  if d.1 < 10 then UInt8.ofNat (48 + d.1)
  else if d.2 then UInt8.ofNat (55 + d.1) else UInt8.ofNat (87 + d.1)

def Literal.text : Literal → Text
  | .decimal first digits suffix =>
    digitChar (first.val + 1) :: (digits.map (fun d => digitChar d.val) ++ suffix.map Suffix.char)
  | .octal digits suffix => 48 :: (digits.map (fun d => digitChar d.val) ++ suffix.map Suffix.char)
  | .hex upper digits suffix =>
    48 :: (if upper then 88 else 120) :: (digits.map hexChar ++ suffix.map Suffix.char)

/-- The scanner knows the prefix `0x` only. -/
def Literal.isLower : Literal → Bool
  | .hex upper _ _ => !upper
  | _ => true

/-- The symbol of a literal, as the scanner reads it; one with `0X` is that with `0x`. -/
def Literal.sy : Literal → Sy
  | .decimal first digits suffix =>
    (scanDecimal (Literal.text (.decimal first digits suffix))).1
  | .octal digits suffix =>
    (scanZero (digits.map (fun d => digitChar d.val) ++ suffix.map Suffix.char)).1
  | .hex _ digits suffix => (scanZero (120 :: (digits.map hexChar ++ suffix.map Suffix.char))).1

/-! ## Trees -/

inductive UnOp where
  | plus | minus | complement | not
deriving DecidableEq, Repr

inductive BinOp where
  | mul | div | rem | add | sub | shl | shr | lt | gt | le | ge | eq | ne | band | bxor | bor
  | land | lor
deriving DecidableEq, Repr

/-- The operators that C calls multiplicative have level 0, `||` has level 9. -/
def BinOp.level : BinOp → Nat
  | .mul | .div | .rem => 0
  | .add | .sub => 1
  | .shl | .shr => 2
  | .lt | .gt | .le | .ge => 3
  | .eq | .ne => 4
  | .band => 5
  | .bxor => 6
  | .bor => 7
  | .land => 8
  | .lor => 9

/-- The trees of the grammar. -/
inductive Expr where
  | literal (l : Literal)
  | unary (op : UnOp) (a : Expr)
  | binary (op : BinOp) (a b : Expr)
  | cond (c a b : Expr)
  | comma (a b : Expr)
deriving DecidableEq, Repr

def BinOp.sy : BinOp → Sy
  | .mul => .char 42
  | .div => .char 47
  | .rem => .char 37
  | .add => .char 43
  | .sub => .char 45
  | .shl => .shl
  | .shr => .shr
  | .lt => .char 60
  | .gt => .char 62
  | .le => .leq
  | .ge => .geq
  | .eq => .equ
  | .ne => .neq
  | .band => .char 38
  | .bxor => .char 94
  | .bor => .char 124
  | .land => .and
  | .lor => .or

/-! ## Values of trees -/

section

variable (env : Env)

def UnOp.apply (v : Value) : UnOp → Value
  | .plus => v
  | .minus => opMinus env .normal v
  | .complement => opComplement .normal v
  | .not => opNot env .normal v

/-- The operators that use both operands. -/
def BinOp.apply (op : BinOp) (v x : Value) : Except Message Value :=
  match op.level with
  | 0 => opMultiplicative .normal op.sy v x
  | 1 => opAdditive .normal op.sy v x
  | 2 => opShift .normal op.sy v x
  | 3 => opRelational env .normal op.sy v x
  | 4 => opEquality env .normal op.sy v x
  | 5 => opBits (· &&& ·) .normal op.sy v x
  | 6 => opBits (· ^^^ ·) .normal op.sy v x
  | _ => opBits (· ||| ·) .normal op.sy v x

def isTrue (v : Value) : Bool := toBoolean .normal v

def Literal.value (l : Literal) : Value :=
  match l.sy with
  | .val v flags => literalValue env v flags
  | _ => textVal .integer 0

/-- The value of a tree, from the leaves up and from the left to the right, or the first error. -/
def eval : Expr → Except Message Value
  | .literal l => .ok (l.value env)
  | .unary op a => do
    let v ← eval a
    .ok (op.apply env v)
  | .binary .land a b => do
    let v ← eval a
    if isTrue v then eval b else .ok v
  | .binary .lor a b => do
    let v ← eval a
    if isTrue v then .ok v else eval b
  | .binary op a b => do
    let v ← eval a
    let x ← eval b
    op.apply env v x
  | .cond c a b => do
    let v ← eval c
    if isTrue v then eval a else eval b
  | .comma a b => do
    let _ ← eval a
    eval b

end

/-! ## Texts of trees -/

/-- The tokens that a tree is written with. -/
inductive Token where
  | literal (l : Literal)
  | binary (op : BinOp)
  | complement | not | left | right | quest | colon | comma
deriving DecidableEq, Repr

def Token.sy : Token → Sy
  | .literal l => l.sy
  | .binary op => op.sy
  | .complement => .char 126
  | .not => .char 33
  | .left => .char 40
  | .right => .char 41
  | .quest => .char 63
  | .colon => .char 58
  | .comma => .char 44

def BinOp.text : BinOp → Text
  | .mul => [42]
  | .div => [47]
  | .rem => [37]
  | .add => [43]
  | .sub => [45]
  | .shl => [60, 60]
  | .shr => [62, 62]
  | .lt => [60]
  | .gt => [62]
  | .le => [60, 61]
  | .ge => [62, 61]
  | .eq => [61, 61]
  | .ne => [33, 61]
  | .band => [38]
  | .bxor => [94]
  | .bor => [124]
  | .land => [38, 38]
  | .lor => [124, 124]

def Token.text : Token → Text
  | .literal l => l.text
  | .binary op => op.text
  | .complement => [126]
  | .not => [33]
  | .left => [40]
  | .right => [41]
  | .quest => [63]
  | .colon => [58]
  | .comma => [44]

def Token.isLower : Token → Bool
  | .literal l => l.isLower
  | _ => true

def UnOp.token : UnOp → Token
  | .plus => .binary .add
  | .minus => .binary .sub
  | .complement => .complement
  | .not => .not

/-- The level of a tree: 0 for an operand of an operator with one operand, then the levels of
the operators with two, 11 for a conditional and 12 for a comma list. -/
def Expr.level : Expr → Nat
  | .literal _ | .unary _ _ => 0
  | .binary op _ _ => op.level + 1
  | .cond _ _ _ => 11
  | .comma _ _ => 12

/-- The tokens of a tree where the grammar wants at most `limit`: parentheses stand around what
has a greater level. -/
def Expr.tokens (limit : Nat) : Expr → List Token
  | .literal l => [.literal l]
  | .unary op a => op.token :: a.tokens 0
  | .binary op a b =>
    let body := a.tokens (op.level + 1) ++ .binary op :: b.tokens op.level
    if op.level + 1 ≤ limit then body else .left :: (body ++ [.right])
  | .cond c a b =>
    let body := c.tokens 10 ++ .quest :: (a.tokens 12 ++ .colon :: b.tokens 11)
    if 11 ≤ limit then body else .left :: (body ++ [.right])
  | .comma a b =>
    let body := a.tokens 12 ++ .comma :: b.tokens 11
    if 12 ≤ limit then body else .left :: (body ++ [.right])

def Blank (t : Text) : Prop := ∀ c ∈ t, isBlank c = true

/-- White space comes next, or the end. -/
def Apart (t : Text) : Prop := ∀ c ∈ t.head?, isBlank c = true

/-- The text is a writing of the tokens, with white space between them, and before and after them
where there is some. -/
inductive Written : List Token → Text → Prop
  | nil {blank : Text} (hBlank : Blank blank) : Written [] blank
  | cons {t : Token} {ts : List Token} {blank rest : Text} (hBlank : Blank blank)
    (hApart : Apart rest) (hRest : Written ts rest) :
    Written (t :: ts) (blank ++ (t.text ++ rest))

/-- No literal has the prefix `0X`. -/
def Expr.isLower : Expr → Bool
  | .literal l => l.isLower
  | .unary _ a => a.isLower
  | .binary _ a b | .comma a b => a.isLower && b.isLower
  | .cond c a b => c.isLower && a.isLower && b.isLower

/-! ## Conditionals with a comma list in the middle -/

/-- A comma list stands between `?` and `:`. -/
def Expr.hasCommaMiddle : Expr → Bool
  | .literal _ => false
  | .unary _ a => a.hasCommaMiddle
  | .binary _ a b => a.hasCommaMiddle || b.hasCommaMiddle
  | .cond c a b => c.hasCommaMiddle || a.level = 12 || a.hasCommaMiddle || b.hasCommaMiddle
  | .comma a b => a.hasCommaMiddle || b.hasCommaMiddle

/-- The first member of a comma list. -/
def Expr.first : Expr → Expr
  | .comma a _ => a.first
  | e => e

/-- An operator fails, or the condition holds of the value. -/
def unlessFails (r : Except Message Value) (next : Value → Bool) : Bool :=
  match r with
  | .error _ => true
  | .ok v => next v

/-- In the order of the text, an operator fails before a comma list between `?` and `:` comes up,
or there is none. Of a comma list between `?` and `:`, only the first member comes up (`whole` is
false); of an operand that is not wanted, all parts do, and no operator can fail. -/
def Expr.accepted (env : Env) : Expr → (whole : Bool) → Bool
  | .literal _, _ => true
  | .unary _ a, _ => a.accepted env true
  | .binary .land a b, _ => a.accepted env true && unlessFails (eval env a) fun v =>
    if isTrue v then b.accepted env true else !b.hasCommaMiddle
  | .binary .lor a b, _ => a.accepted env true && unlessFails (eval env a) fun v =>
    if isTrue v then !b.hasCommaMiddle else b.accepted env true
  | .binary _ a b, _ => a.accepted env true && unlessFails (eval env a) fun _ =>
    b.accepted env true
  | .cond c a b, _ => c.accepted env true && unlessFails (eval env c) fun v =>
    if isTrue v then
      a.accepted env false && unlessFails (eval env a.first) fun _ =>
        a.level ≠ 12 && !b.hasCommaMiddle
    else a.level ≠ 12 && !a.hasCommaMiddle && b.accepted env true
  | .comma a b, true => a.accepted env true && unlessFails (eval env a) fun _ =>
    b.accepted env true
  | .comma a _, false => a.accepted env false

end TcfAgent.Expressions
