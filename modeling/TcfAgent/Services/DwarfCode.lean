import TcfAgent.Lib.Leb128

/-!
# DWARF expressions as instructions

`services/dwarf.h`, `services/vm.c`: the operations of location expressions, with the
operands that `evaluate_expression` reads after each opcode (`format`). `Code` is a sequence
of instructions with what stands after each opcode; `Code.bytes` is the expression. The
sizes that `OP_GNU_entry_value`, `OP_TCF_switch` and its cases begin with are put in there.

Main results:

* `setU2_append`   — the operand of a branch is replaced where the branch is;
* `Code.shape_append` — instructions that are well formed can be put one after another.
-/

namespace TcfAgent.Dwarf

open TcfAgent.Lib

/-! ## Operations -/

namespace Op

def reg : UInt8 := 0x01
def basereg : UInt8 := 0x02
def addr : UInt8 := 0x03
def const : UInt8 := 0x04
def deref2 : UInt8 := 0x05
def deref : UInt8 := 0x06
def add : UInt8 := 0x07
def const1u : UInt8 := 0x08
def const1s : UInt8 := 0x09
def const2u : UInt8 := 0x0a
def const2s : UInt8 := 0x0b
def const4u : UInt8 := 0x0c
def const4s : UInt8 := 0x0d
def const8u : UInt8 := 0x0e
def const8s : UInt8 := 0x0f
def constu : UInt8 := 0x10
def consts : UInt8 := 0x11
def dup : UInt8 := 0x12
def drop : UInt8 := 0x13
def «over» : UInt8 := 0x14
def pick : UInt8 := 0x15
def swap : UInt8 := 0x16
def rot : UInt8 := 0x17
def xderef : UInt8 := 0x18
def abs : UInt8 := 0x19
def and : UInt8 := 0x1a
def div : UInt8 := 0x1b
def minus : UInt8 := 0x1c
def mod : UInt8 := 0x1d
def mul : UInt8 := 0x1e
def neg : UInt8 := 0x1f
def not : UInt8 := 0x20
def or : UInt8 := 0x21
def plus : UInt8 := 0x22
def plusUconst : UInt8 := 0x23
def shl : UInt8 := 0x24
def shr : UInt8 := 0x25
def shra : UInt8 := 0x26
def xor : UInt8 := 0x27
def bra : UInt8 := 0x28
def eq : UInt8 := 0x29
def ge : UInt8 := 0x2a
def gt : UInt8 := 0x2b
def le : UInt8 := 0x2c
def lt : UInt8 := 0x2d
def ne : UInt8 := 0x2e
def skip : UInt8 := 0x2f
def lit0 : UInt8 := 0x30
def lit31 : UInt8 := 0x4f
def reg0 : UInt8 := 0x50
def reg31 : UInt8 := 0x6f
def breg0 : UInt8 := 0x70
def breg31 : UInt8 := 0x8f
def regx : UInt8 := 0x90
def fbreg : UInt8 := 0x91
def bregx : UInt8 := 0x92
def piece : UInt8 := 0x93
def derefSize : UInt8 := 0x94
def xderefSize : UInt8 := 0x95
def nop : UInt8 := 0x96
def pushObjectAddress : UInt8 := 0x97
def call2 : UInt8 := 0x98
def call4 : UInt8 := 0x99
def callRef : UInt8 := 0x9a
def formTlsAddress : UInt8 := 0x9b
def callFrameCfa : UInt8 := 0x9c
def bitPiece : UInt8 := 0x9d
def implicitValue : UInt8 := 0x9e
def stackValue : UInt8 := 0x9f
def implicitPointer : UInt8 := 0xa0
def loUser : UInt8 := 0xe0
def gnuPushTlsAddress : UInt8 := 0xe0
def gnuImplicitPointer : UInt8 := 0xf2
def gnuEntryValue : UInt8 := 0xf3
def gnuConstType : UInt8 := 0xf4
def gnuRegvalType : UInt8 := 0xf5
def gnuDerefType : UInt8 := 0xf6
def gnuConvert : UInt8 := 0xf7
def gnuParameterRef : UInt8 := 0xfa
def gnuVariableValue : UInt8 := 0xfd
def tcfSwitch : UInt8 := 0xfe
def tcfOffset : UInt8 := 0xff

end Op

/-! ## Instructions -/

/-- An operand, as its bytes: of a fixed size, or one LEB128 number. -/
inductive Operand where
  | data (bytes : List UInt8)
  | leb (bytes : List UInt8)
deriving DecidableEq, Repr

def Operand.bytes : Operand → List UInt8
  | .data bytes => bytes
  | .leb bytes => bytes

mutual

/-- Instructions, in the order in which they were emitted. -/
inductive Code where
  | nil
  | op (o : UInt8) (operands : List Operand) (rest : Code)
  | implicitValue (size block : List UInt8) (rest : Code)
  | variableValue (id : List UInt8) (rest : Code)
  | entryValue (body rest : Code)
  | tcfSwitch (cases : Cases) (rest : Code)

/-- The cases of an `OP_TCF_switch`. -/
inductive Cases where
  | nil
  | cons (addr size : List UInt8) (body : Code) (rest : Cases)

end

deriving instance DecidableEq for Code, Cases

def Code.append : Code → Code → Code
  | .nil, c => c
  | .op o operands rest, c => .op o operands (rest.append c)
  | .implicitValue size block rest, c => .implicitValue size block (rest.append c)
  | .variableValue id rest, c => .variableValue id (rest.append c)
  | .entryValue body rest, c => .entryValue body (rest.append c)
  | .tcfSwitch cases rest, c => .tcfSwitch cases (rest.append c)

instance : Append Code := ⟨Code.append⟩

def leNat : List UInt8 → Nat
  | [] => 0
  | b :: bs => b.toNat + 256 * leNat bs

/-- The number in the bytes, in one or the other byte order. -/
def readUint (big : Bool) (bytes : List UInt8) : Nat :=
  leNat (if big then bytes.reverse else bytes)

/-- The bytes that `set_u2` stores. -/
def u2Bytes (big : Bool) (v : Nat) : List UInt8 :=
  if big then [UInt8.ofNat (v / 256), UInt8.ofNat v] else [UInt8.ofNat v, UInt8.ofNat (v / 256)]

@[simp] theorem u2Bytes_length (big : Bool) (v : Nat) : (u2Bytes big v).length = 2 := by
  unfold u2Bytes
  split <;> rfl

theorem readUint_u2Bytes {n : Nat} (big : Bool) (h : n < 0x10000) :
    readUint big (u2Bytes big n) = n := by
  unfold u2Bytes
  cases big <;> simp [readUint, leNat] <;> omega

/-- The three bytes that the size of an `OP_GNU_entry_value` is given. -/
def u3LebBytes (size : Nat) : List UInt8 :=
  [UInt8.ofNat (size % 128 + 128), UInt8.ofNat (size / 128 % 128 + 128),
    UInt8.ofNat (size / 16384 % 128)]

mutual

/-- What is in the buffer. The id of an `OP_GNU_variable_value` goes there up to its
terminating zero, without it. -/
@[simp] def Code.bytes (big : Bool) : Code → List UInt8
  | .nil => []
  | .op o operands rest => o :: (operands.flatMap Operand.bytes ++ rest.bytes big)
  | .implicitValue size block rest => Op.implicitValue :: (size ++ (block ++ rest.bytes big))
  | .variableValue id rest => Op.gnuVariableValue :: (id ++ rest.bytes big)
  | .entryValue body rest =>
    Op.gnuEntryValue :: (u3LebBytes (body.bytes big).length ++ (body.bytes big ++ rest.bytes big))
  | .tcfSwitch cases rest =>
    Op.tcfSwitch :: (u2Bytes big ((cases.bytes big).length + 2) ++
      (cases.bytes big ++ ([0, 0] ++ rest.bytes big)))

@[simp] def Cases.bytes (big : Bool) : Cases → List UInt8
  | .nil => []
  | .cons addr size body rest =>
    u2Bytes big (addr.length + size.length + (body.bytes big).length) ++
      (addr ++ (size ++ (body.bytes big ++ rest.bytes big)))

end

/-- `set_u2(pos + 1, ...)`, where `pos` is the position of a branch: its operand is
replaced. -/
@[simp] def Code.setU2 (big : Bool) (operand : List UInt8) : Code → Nat → Code
  | .op o _ rest, 0 => .op o [.data operand] rest
  | .nil, _ => .nil
  | .op o operands rest, pos + 1 =>
    .op o operands (rest.setU2 big operand (pos - (operands.flatMap Operand.bytes).length))
  | .implicitValue size block rest, pos =>
    .implicitValue size block (rest.setU2 big operand (pos - (1 + size.length + block.length)))
  | .variableValue id rest, pos =>
    .variableValue id (rest.setU2 big operand (pos - (1 + id.length)))
  | .entryValue body rest, pos =>
    .entryValue body (rest.setU2 big operand (pos - (4 + (body.bytes big).length)))
  | .tcfSwitch cases rest, pos =>
    .tcfSwitch cases (rest.setU2 big operand (pos - (5 + (cases.bytes big).length)))

/-! ## Operands -/

/-- How `evaluate_expression` reads an operand: `read_u1` and its like, `read_ia` or
`read_ua`, `read_u4leb128` or `read_u8leb128`, `read_i8leb128`. -/
inductive Format where
  | fixed (n : Nat)
  | address
  | uleb (bits : Nat)
  | sleb
deriving DecidableEq, Repr

/-- The operands that `evaluate_expression` reads after an opcode. It gives up on
`OP_GNU_const_type` and `OP_GNU_regval_type` without reading any; the operations that have
instructions of their own in `Code` are left out too. (The operand of `OP_TCF_offset` is the
one of an address: see `formatIn`.) -/
def format (op : UInt8) : Option (List Format) :=
  if op ∈ [Op.gnuConstType, Op.gnuRegvalType, Op.implicitValue, Op.gnuVariableValue,
      Op.gnuEntryValue, Op.tcfSwitch] then none
  else if op ∈ [Op.const1u, Op.const1s, Op.pick, Op.derefSize, Op.xderefSize] then
    some [.fixed 1]
  else if op ∈ [Op.const2u, Op.const2s, Op.bra, Op.skip] then some [.fixed 2]
  else if op ∈ [Op.const4u, Op.const4s] then some [.fixed 4]
  else if op ∈ [Op.const8u, Op.const8s] then some [.fixed 8]
  else if op ∈ [Op.const, Op.reg, Op.basereg] then some [.address]
  else if op ∈ [Op.constu, Op.plusUconst, Op.tcfOffset] then some [.uleb 64]
  else if op ∈ [Op.regx, Op.piece] then some [.uleb 32]
  else if op = Op.consts ∨ (Op.breg0 ≤ op ∧ op ≤ Op.breg31) then some [.sleb]
  else if op = Op.bregx then some [.uleb 32, .sleb]
  else if op ∈ [Op.bitPiece, Op.gnuConvert] then some [.uleb 32, .uleb 32]
  else if op = Op.gnuDerefType then some [.uleb 64, .uleb 32, .uleb 32]
  else some []

/-- The operand is of the format; the size of an address and of a number are left open. -/
def Operand.Is : Operand → Format → Prop
  | .data bytes, .fixed n => bytes.length = n
  | .data _, .address => True
  | .leb bytes, .uleb _ => Leb128.Ends bytes
  | .leb bytes, .sleb => Leb128.Ends bytes
  | _, _ => False

/-- The format of a LEB128 number. -/
def Format.isLeb : Format → Bool
  | .uleb _ | .sleb => true
  | _ => false

theorem Operand.is_leb {raw : List UInt8} (h : Leb128.Ends raw) {f : Format}
    (hf : f.isLeb = true) : (Operand.leb raw).Is f := by
  cases f <;> first | exact h | simp [Format.isLeb] at hf

/-- What the transformation puts after an opcode: the operands that are read there, or
operands of an operation that is given up on, or an offset after an `OP_basereg`. -/
inductive OpShape : UInt8 → List Operand → Prop
  | plain {o operands formats} (hFormat : format o = some formats)
      (hIs : List.Forall₂ Operand.Is operands formats) : OpShape o operands
  | basereg {bytes raw} (hRaw : Leb128.Ends raw) :
      OpShape Op.basereg [.data bytes, .leb raw]
  | constType {operands} : OpShape Op.gnuConstType operands
  | regvalType {operands} : OpShape Op.gnuRegvalType operands

mutual

/-- What the transformation emits. -/
@[simp] def Code.Shape (big : Bool) : Code → Prop
  | .nil => True
  | .op o operands rest => OpShape o operands ∧ rest.Shape big
  | .implicitValue size block rest =>
    Leb128.Ends size ∧ Leb128.value size % 2 ^ 32 = block.length ∧ rest.Shape big
  | .variableValue id rest => id ≠ [] ∧ 0 ∉ id ∧ rest.Shape big
  | .entryValue body rest => body.Shape big ∧ rest.Shape big
  | .tcfSwitch cases rest =>
    (cases.bytes big).length + 2 ≤ 0xffff ∧ cases.Shape big ∧ rest.Shape big

@[simp] def Cases.Shape (big : Bool) : Cases → Prop
  | .nil => True
  | .cons addr size body rest =>
    Leb128.Ends addr ∧ Leb128.Ends size ∧ body.Shape big ∧ rest.Shape big

end

namespace Code

/-- Induction on the instructions one after another, not on what is inside of them. -/
theorem spine {P : Code → Prop} (nil : P .nil)
    (op : ∀ o operands rest, P rest → P (.op o operands rest))
    (implicitValue : ∀ size block rest, P rest → P (.implicitValue size block rest))
    (variableValue : ∀ id rest, P rest → P (.variableValue id rest))
    (entryValue : ∀ body rest, P rest → P (.entryValue body rest))
    (tcfSwitch : ∀ cases rest, P rest → P (.tcfSwitch cases rest)) (c : Code) : P c :=
  @Code.rec P (fun _ => True) nil op implicitValue variableValue
    (fun body rest _ ih => entryValue body rest ih)
    (fun cases rest _ ih => tcfSwitch cases rest ih) trivial (fun _ _ _ _ _ _ => trivial) c

section

variable (a b : Code)

@[simp] theorem nil_append : .nil ++ a = a := rfl

@[simp] theorem op_append (o : UInt8) (operands : List Operand) :
    .op o operands a ++ b = .op o operands (a ++ b) := rfl

@[simp] theorem implicitValue_append (size block : List UInt8) :
    .implicitValue size block a ++ b = .implicitValue size block (a ++ b) := rfl

@[simp] theorem variableValue_append (id : List UInt8) :
    .variableValue id a ++ b = .variableValue id (a ++ b) := rfl

@[simp] theorem entryValue_append (body : Code) :
    .entryValue body a ++ b = .entryValue body (a ++ b) := rfl

@[simp] theorem tcfSwitch_append (cases : Cases) :
    .tcfSwitch cases a ++ b = .tcfSwitch cases (a ++ b) := rfl

end

@[simp] theorem append_nil (c : Code) : c ++ .nil = c := by
  induction c using spine <;> simp [*]

theorem append_assoc (a b c : Code) : a ++ b ++ c = a ++ (b ++ c) := by
  induction a using spine <;> simp [*]

theorem bytes_append (big : Bool) (a b : Code) :
    (a ++ b).bytes big = a.bytes big ++ b.bytes big := by
  induction a using spine <;> simp [bytes, *]

/-- Well-formed instructions can be put one after another. -/
theorem shape_append {big : Bool} {a b : Code} :
    (a ++ b).Shape big ↔ a.Shape big ∧ b.Shape big := by
  induction a using spine <;> simp [Shape, and_assoc, *]

variable {big : Bool}

/-- Of two ways to divide instructions, the one that divides later goes through the other. -/
theorem append_eq_append {a b a' b' : Code} (h : a ++ b = a' ++ b')
    (hLe : (a.bytes big).length ≤ (a'.bytes big).length) : ∃ d, a' = a ++ d ∧ b = d ++ b' := by
  induction a using spine generalizing a' with
  | nil => exact ⟨a', rfl, h⟩
  | op o operands rest ih =>
    cases a' with
    | op o' operands' rest' =>
      simp only [op_append, op.injEq] at h
      obtain ⟨rfl, rfl, hRest⟩ := h
      obtain ⟨d, rfl, hd⟩ := ih hRest (by simpa [bytes] using hLe)
      exact ⟨d, rfl, hd⟩
    | nil => simp [bytes] at hLe
    | _ => simp at h
  | implicitValue size block rest ih =>
    cases a' with
    | implicitValue size' block' rest' =>
      simp only [implicitValue_append, implicitValue.injEq] at h
      obtain ⟨rfl, rfl, hRest⟩ := h
      obtain ⟨d, rfl, hd⟩ := ih hRest (by simpa [bytes] using hLe)
      exact ⟨d, rfl, hd⟩
    | nil => simp [bytes] at hLe
    | _ => simp at h
  | variableValue id rest ih =>
    cases a' with
    | variableValue id' rest' =>
      simp only [variableValue_append, variableValue.injEq] at h
      obtain ⟨rfl, hRest⟩ := h
      obtain ⟨d, rfl, hd⟩ := ih hRest (by simpa [bytes] using hLe)
      exact ⟨d, rfl, hd⟩
    | nil => simp [bytes] at hLe
    | _ => simp at h
  | entryValue body rest ih =>
    cases a' with
    | entryValue body' rest' =>
      simp only [entryValue_append, entryValue.injEq] at h
      obtain ⟨rfl, hRest⟩ := h
      obtain ⟨d, rfl, hd⟩ := ih hRest (by simpa [bytes] using hLe)
      exact ⟨d, rfl, hd⟩
    | nil => simp [bytes] at hLe
    | _ => simp at h
  | tcfSwitch cases rest ih =>
    cases a' with
    | tcfSwitch cases' rest' =>
      simp only [tcfSwitch_append, tcfSwitch.injEq] at h
      obtain ⟨rfl, hRest⟩ := h
      obtain ⟨d, rfl, hd⟩ := ih hRest (by simpa [bytes] using hLe)
      exact ⟨d, rfl, hd⟩
    | nil => simp [bytes] at hLe
    | _ => simp at h

/-- At `pos` there is an operation with one operand of a fixed size. -/
def At (big : Bool) (code : Code) (pos : Nat) (o : UInt8) (operand : List UInt8) : Prop :=
  ∃ a c, code = a ++ .op o [.data operand] c ∧ (a.bytes big).length = pos

/-- The operand of a branch is replaced where the branch is. -/
theorem setU2_append (v : List UInt8) (o : UInt8) (operands : List Operand) (a c : Code) :
    (a ++ .op o operands c).setU2 big v (a.bytes big).length = a ++ .op o [.data v] c := by
  induction a using spine with
  | nil => rfl
  | op o operands rest ih =>
    simp [bytes, setU2, ih]
  | implicitValue size block rest ih =>
    have : size.length + (block.length + (rest.bytes big).length) + 1 -
        (1 + size.length + block.length) = (rest.bytes big).length := by omega
    simp [bytes, setU2, this, ih]
  | variableValue id rest ih =>
    have : id.length + (rest.bytes big).length + 1 - (1 + id.length) =
        (rest.bytes big).length := by omega
    simp [bytes, setU2, this, ih]
  | entryValue body rest ih =>
    have : (body.bytes big).length + (rest.bytes big).length + 1 + 1 + 1 + 1 -
        (4 + (body.bytes big).length) = (rest.bytes big).length := by omega
    simp [bytes, setU2, u3LebBytes, this, ih]
  | tcfSwitch cases rest ih =>
    have : 2 + ((cases.bytes big).length + ((rest.bytes big).length + 1 + 1)) + 1 -
        (5 + (cases.bytes big).length) = (rest.bytes big).length := by omega
    simp [bytes, setU2, this, ih]

variable {code : Code} {o : UInt8} {operand : List UInt8} {pos : Nat}

theorem At.lt (h : At big code pos o operand) : pos < (code.bytes big).length := by
  obtain ⟨a, c, rfl, rfl⟩ := h
  simp [bytes_append, bytes]

theorem At.append
    (h : At big code pos o operand) (c : Code) : At big (code ++ c) pos o operand := by
  obtain ⟨a, d, rfl, rfl⟩ := h
  exact ⟨a, d ++ c, by simp [append_assoc], rfl⟩

/-- Replacing an operand by one of its size keeps the size. -/
theorem At.length_setU2 {x v : List UInt8}
    (h : At big code pos o x) (hLength : v.length = x.length) :
    ((code.setU2 big v pos).bytes big).length = (code.bytes big).length := by
  obtain ⟨a, c, rfl, rfl⟩ := h
  rw [setU2_append]
  simp [bytes_append, bytes, Operand.bytes, hLength]

theorem At.setU2
    (h : At big code pos o operand) (v : List UInt8) : At big (code.setU2 big v pos) pos o v := by
  obtain ⟨a, c, rfl, rfl⟩ := h
  exact ⟨a, c, setU2_append v o _ a c, rfl⟩

/-- The other operands stay as they are, and where they are. -/
theorem At.setU2_ne {p q : Nat} {o o' : UInt8} {x x' v : List UInt8}
    (hp : At big code p o x) (hq : At big code q o' x') (hne : p ≠ q)
    (hLength : v.length = x.length) : At big (code.setU2 big v p) q o' x' := by
  obtain ⟨a, c, rfl, rfl⟩ := hp
  obtain ⟨a', c', hCode, rfl⟩ := hq
  rw [setU2_append]
  rcases Nat.lt_or_gt_of_ne hne with hlt | hgt
  · obtain ⟨d, rfl, hd⟩ := append_eq_append hCode hlt.le
    cases d with
    | nil => simp at hlt
    | op o'' operands d =>
      simp only [op_append, op.injEq] at hd
      obtain ⟨rfl, rfl, rfl⟩ := hd
      refine ⟨a ++ .op o [.data v] d, c', by simp [append_assoc], ?_⟩
      simp [bytes_append, bytes, Operand.bytes, hLength]
    | _ => simp at hd
  · obtain ⟨d, rfl, hd⟩ := append_eq_append hCode.symm hgt.le
    cases d with
    | nil => simp at hgt
    | op o'' operands d =>
      simp only [op_append, op.injEq] at hd
      obtain ⟨rfl, rfl, rfl⟩ := hd
      exact ⟨a', d ++ .op o [.data v] c, by simp [append_assoc], rfl⟩
    | _ => simp at hd

/-- A branch keeps its shape with another offset. -/
theorem At.shape_setU2 {p : Nat} {x v : List UInt8}
    (h : At big code p o x) (ho : format o = some [.fixed 2]) (hv : v.length = 2)
    (hShape : code.Shape big) : (code.setU2 big v p).Shape big := by
  obtain ⟨a, c, rfl, rfl⟩ := h
  rw [setU2_append]
  rw [shape_append] at hShape ⊢
  refine ⟨hShape.1, .plain ho (.cons hv .nil), hShape.2.2⟩

end Code

end TcfAgent.Dwarf
