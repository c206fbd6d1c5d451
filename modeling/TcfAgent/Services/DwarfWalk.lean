import TcfAgent.Services.DwarfJumps

/-!
# Reading transformed DWARF expressions

`evaluate_expression` of `services/vm.c` as a reader: `walk` goes through the bytes of an expression
with the operand formats of the virtual machine, into the tables of `OP_TCF_switch` and the bodies
of `OP_GNU_entry_value` too, and gives the instructions it has met. Which bits an `OP_TCF_offset`
has depends on what the machine has found so far. `none` is an exception, or a number that does not
fit in what it is read into.

What `services/dwarfecomp.c` emits is read back, except for a few kinds of operations
(`Code.Plain`): the id of an `OP_GNU_variable_value` is emitted without the terminating
zero, an `OP_basereg` that comes from a frame base gets an offset that is not read, the
size of an `OP_GNU_entry_value` has three bytes only.

Main results:

* `walkAux_plain`  — operations of the other kinds are read back;
* `walk_whole`    — only those are, whatever the bytes are read as;
* `transform_walk` — the two together, for every expression that is accepted.
-/

namespace TcfAgent.Dwarf

open TcfAgent.Lib

/-! ## The reader -/

/-- The first `n` bytes and those after them. -/
def takeBytes (n : Nat) (bytes : List UInt8) : Option (List UInt8 × List UInt8) :=
  if n ≤ bytes.length then some (bytes.take n, bytes.drop n) else none

/-- A C string and what follows its terminating zero. -/
def takeString : List UInt8 → Option (List UInt8 × List UInt8)
  | [] => none
  | b :: bs => if b = 0 then some ([], bs) else (takeString bs).map fun p => (b :: p.1, p.2)

/-- `read_u2`, and what follows. -/
def takeU2 (big : Bool) (bytes : List UInt8) : Option (Nat × List UInt8) :=
  (takeBytes 2 bytes).map fun p => (readUint big p.1, p.2)

/-- An operand, where `a` is `state->addr_size`. -/
def readOperand (a : Nat) (bytes : List UInt8) : Format → Option (Operand × List UInt8)
  | .fixed n => (takeBytes n bytes).map fun p => (.data p.1, p.2)
  | .address =>
    if a ∈ [1, 2, 4, 8] then (takeBytes a bytes).map fun p => (.data p.1, p.2) else none
  | .uleb bits => (Leb128.takeNumber bytes).bind fun p =>
    if Leb128.value p.1 < 2 ^ bits then some (.leb p.1, p.2) else none
  | .sleb => (Leb128.takeNumber bytes).bind fun p =>
    if -2 ^ 63 ≤ Leb128.signedValue p.1 ∧ Leb128.signedValue p.1 < 2 ^ 63 then
      some (.leb p.1, p.2)
    else none

def readOperands (a : Nat) : List Format → List UInt8 → Option (List Operand × List UInt8)
  | [], bytes => some ([], bytes)
  | f :: fs, bytes =>
    (readOperand a bytes f).bind fun p =>
      (readOperands a fs p.2).map fun q => (p.1 :: q.1, q.2)

/-- Whether the virtual machine has pieces, a register or a value when it comes to an operation, in
one visit of the code. An operation is named by the way to it: `false` goes on to the next one,
`true` goes into the body of one. -/
abbrev Visit := List Bool → Bool

namespace Visit

/-- From the next operation on. -/
def next (v : Visit) : Visit := fun way => v (false :: way)

def inner (v : Visit) : Visit := fun way => v (true :: way)

/-- The operation before has given a value. -/
def behindValue (v : Visit) : Visit := fun way => way = [] || v.next way

end Visit

/-- The operands with what the virtual machine has: an offset into pieces takes `read_u4leb128`, one
that is added to an address `read_u8leb128`. -/
def formatIn (pieces : Bool) (op : UInt8) : Option (List Format) :=
  if op = Op.tcfOffset ∧ pieces then some [.uleb 32] else format op

mutual

/-- `evaluate_expression`, reading all operations one after another. -/
def walkAux (big : Bool) (a : Nat) : (fuel : Nat) → Visit → List UInt8 → Option Code
  | _, _, [] => some .nil
  | 0, _, _ :: _ => none
  | fuel + 1, v, op :: bytes =>
    if op = Op.implicitValue then
      (Leb128.takeNumber bytes).bind fun size =>
        (takeBytes (Leb128.value size.1 % 2 ^ 32) size.2).bind fun block =>
          (walkAux big a fuel v.behindValue block.2).map fun rest =>
            .implicitValue size.1 block.1 rest
    else if op = Op.gnuVariableValue then
      (takeString bytes).bind fun id =>
        (walkAux big a fuel v.next id.2).map fun rest => .variableValue id.1 rest
    else if op = Op.gnuEntryValue then
      (Leb128.takeNumber bytes).bind fun size =>
        (takeBytes (Leb128.value size.1 % 2 ^ 32) size.2).bind fun p =>
          (walkAux big a fuel v.inner p.1).bind fun body =>
            (walkAux big a fuel v.next p.2).map fun rest => .entryValue body rest
    else if op = Op.tcfSwitch then
      (takeU2 big bytes).bind fun size =>
        (takeBytes size.1 size.2).bind fun p =>
          (walkCases big a fuel v.inner p.1).bind fun cases =>
            (walkAux big a fuel v.next p.2).map fun rest => .tcfSwitch cases rest
    else
      (formatIn (v []) op).bind fun formats =>
        (readOperands a formats bytes).bind fun p =>
          (walkAux big a fuel v.next p.2).map fun rest => .op op p.1 rest

/-- The table of an `OP_TCF_switch`, up to the size 0 that ends it. -/
def walkCases (big : Bool) (a : Nat) : (fuel : Nat) → Visit → List UInt8 → Option Cases
  | 0, _, _ => none
  | fuel + 1, v, bytes =>
    (takeU2 big bytes).bind fun size =>
      if size.1 = 0 then if size.2 = [] then some .nil else none
      else (takeBytes size.1 size.2).bind fun p =>
        (Leb128.takeNumber p.1).bind fun addr =>
          (Leb128.takeNumber addr.2).bind fun len =>
            (walkAux big a fuel v.inner len.2).bind fun body =>
              (walkCases big a fuel v.next p.2).map fun rest => .cons addr.1 len.1 body rest

end

/-- The operations that are read from all of the bytes. -/
def walk (big : Bool) (a : Nat) (v : Visit) (bytes : List UInt8) : Option Code :=
  walkAux big a (bytes.length + 1) v bytes

/-! ## The operations that are read back -/

/-- The operand is read back, if it is of the format: an address has the size that the
virtual machine takes it to have, a number fits. -/
def Operand.Recovered (a : Nat) : Operand → Format → Prop
  | .data bytes, .address => bytes.length = a ∧ a ∈ [1, 2, 4, 8]
  | .leb raw, .uleb bits => Leb128.value raw < 2 ^ bits
  | .leb raw, .sleb => -2 ^ 63 ≤ Leb128.signedValue raw ∧ Leb128.signedValue raw < 2 ^ 63
  | _, _ => True

instance (a : Nat) (operand : Operand) (f : Format) : Decidable (operand.Recovered a f) := by
  unfold Operand.Recovered
  split <;> infer_instance

/-- Not an `OP_GNU_const_type` or `OP_GNU_regval_type` that has remained one, nor an
`OP_basereg` with an offset. -/
def PlainOp (a : Nat) (pieces : Bool) (o : UInt8) (operands : List Operand) : Prop :=
  o ∉ [Op.gnuConstType, Op.gnuRegvalType] ∧ (o = Op.basereg → operands.length = 1) ∧
    ∀ p ∈ operands.zip ((formatIn pieces o).getD []), Operand.Recovered a p.1 p.2

instance (a : Nat) (pieces : Bool) (o : UInt8) (operands : List Operand) :
    Decidable (PlainOp a pieces o operands) := by
  unfold PlainOp
  infer_instance

mutual

/-- No operation of a kind that is not read back: see `PlainOp`; no `OP_GNU_variable_value`;
no `OP_GNU_entry_value` whose body takes 2 MiB or more. -/
def Code.Plain (big : Bool) (a : Nat) : Visit → Code → Prop
  | _, .nil => True
  | v, .op o operands rest => PlainOp a (v []) o operands ∧ rest.Plain big a v.next
  | v, .implicitValue _ _ rest => rest.Plain big a v.behindValue
  | _, .variableValue _ _ => False
  | v, .entryValue body rest =>
    (body.bytes big).length < 2 ^ 21 ∧ body.Plain big a v.inner ∧ rest.Plain big a v.next
  | v, .tcfSwitch cases rest => cases.Plain big a v.inner ∧ rest.Plain big a v.next

def Cases.Plain (big : Bool) (a : Nat) : Visit → Cases → Prop
  | _, .nil => True
  | v, .cons _ _ body rest => body.Plain big a v.inner ∧ rest.Plain big a v.next

end

/-! ## The parts of the reader -/

theorem takeBytes_append {n : Nat} {x : List UInt8} (h : x.length = n) (y : List UInt8) :
    takeBytes n (x ++ y) = some (x, y) := by
  subst h
  simp [takeBytes]

theorem takeBytes_eq_some {n : Nat} {bytes x y : List UInt8} :
    takeBytes n bytes = some (x, y) ↔ bytes = x ++ y ∧ x.length = n := by
  constructor
  · intro h
    unfold takeBytes at h
    split at h
    · cases h
      exact ⟨(List.take_append_drop n bytes).symm, by simp; omega⟩
    · cases h
  · rintro ⟨rfl, h⟩
    exact takeBytes_append h y

theorem takeString_eq_some {bytes id rest : List UInt8} (h : takeString bytes = some (id, rest)) :
    bytes = id ++ 0 :: rest := by
  induction bytes generalizing id rest with
  | nil => cases h
  | cons b bytes ih =>
    unfold takeString at h
    split at h
    · rename_i hb
      cases h
      simp [hb]
    · obtain ⟨⟨id', rest'⟩, hTake, hEq⟩ := Option.map_eq_some_iff.mp h
      cases hEq
      rw [ih hTake]
      rfl

theorem takeU2_append {n : Nat} (big : Bool) (h : n < 0x10000) (rest : List UInt8) :
    takeU2 big (u2Bytes big n ++ rest) = some (n, rest) := by
  rw [takeU2, takeBytes_append (u2Bytes_length big n)]
  simp [readUint_u2Bytes big h]

variable {a : Nat} {big : Bool}

theorem readOperand_append {operand : Operand} {f : Format} (hIs : operand.Is f)
    (hRecovered : operand.Recovered a f) (rest : List UInt8) :
    readOperand a (operand.bytes ++ rest) f = some (operand, rest) := by
  cases operand with
  | data bytes =>
    cases f with
    | fixed n => simp [readOperand, Operand.bytes, takeBytes_append hIs]
    | address =>
      rw [readOperand, if_pos hRecovered.2, Operand.bytes, takeBytes_append hRecovered.1]
      rfl
    | uleb bits => exact absurd hIs (by simp [Operand.Is])
    | sleb => exact absurd hIs (by simp [Operand.Is])
  | leb raw =>
    cases f with
    | fixed n => exact absurd hIs (by simp [Operand.Is])
    | address => exact absurd hIs (by simp [Operand.Is])
    | uleb bits =>
      have hValue : Leb128.value raw < 2 ^ bits := hRecovered
      simp [readOperand, Operand.bytes, Leb128.takeNumber_append hIs, hValue]
    | sleb =>
      have hValue : -2 ^ 63 ≤ Leb128.signedValue raw ∧ Leb128.signedValue raw < 2 ^ 63 :=
        hRecovered
      simp only [readOperand, Operand.bytes, Leb128.takeNumber_append hIs, Option.bind_some,
        if_pos hValue]

theorem readOperand_eq_some {operand : Operand} {f : Format} {bytes rest : List UInt8}
    (h : readOperand a bytes f = some (operand, rest)) :
    bytes = operand.bytes ++ rest ∧ operand.Is f ∧ operand.Recovered a f := by
  cases f with
  | fixed n =>
    obtain ⟨p, hTake, hEq⟩ := Option.map_eq_some_iff.mp h
    cases hEq
    obtain ⟨hBytes, hLength⟩ := takeBytes_eq_some.mp hTake
    exact ⟨hBytes, hLength, trivial⟩
  | address =>
    simp only [readOperand] at h
    split at h
    · rename_i ha
      obtain ⟨p, hTake, hEq⟩ := Option.map_eq_some_iff.mp h
      cases hEq
      obtain ⟨hBytes, hLength⟩ := takeBytes_eq_some.mp hTake
      exact ⟨hBytes, trivial, hLength, ha⟩
    · cases h
  | uleb bits =>
    obtain ⟨p, hTake, hEq⟩ := Option.bind_eq_some_iff.mp h
    split at hEq
    · rename_i hValue
      cases hEq
      obtain ⟨hBytes, hEnds⟩ := Leb128.takeNumber_eq_some hTake
      exact ⟨hBytes, hEnds, hValue⟩
    · cases hEq
  | sleb =>
    obtain ⟨p, hTake, hEq⟩ := Option.bind_eq_some_iff.mp h
    split at hEq
    · rename_i hValue
      cases hEq
      obtain ⟨hBytes, hEnds⟩ := Leb128.takeNumber_eq_some hTake
      exact ⟨hBytes, hEnds, hValue⟩
    · cases hEq

/-- What is read back as operands of the formats. -/
abbrev Read (a : Nat) (operand : Operand) (f : Format) : Prop :=
  operand.Is f ∧ operand.Recovered a f

variable {operands : List Operand} {formats : List Format}

theorem readOperands_append (h : List.Forall₂ (Read a) operands formats) (rest : List UInt8) :
    readOperands a formats (operands.flatMap Operand.bytes ++ rest) = some (operands, rest) := by
  induction h with
  | nil => rfl
  | cons hRead _ ih =>
    simp [readOperands, List.append_assoc, readOperand_append hRead.1 hRead.2, ih]

theorem readOperands_eq_some {bytes rest : List UInt8}
    (h : readOperands a formats bytes = some (operands, rest)) :
    bytes = operands.flatMap Operand.bytes ++ rest ∧ List.Forall₂ (Read a) operands formats := by
  induction formats generalizing bytes operands with
  | nil =>
    cases h
    exact ⟨rfl, .nil⟩
  | cons f formats ih =>
    obtain ⟨p, hOperand, hRest⟩ := Option.bind_eq_some_iff.mp h
    obtain ⟨q, hOperands, hEq⟩ := Option.map_eq_some_iff.mp hRest
    cases hEq
    obtain ⟨rfl, hRead⟩ := readOperand_eq_some hOperand
    obtain ⟨hBytes, hAll⟩ := ih hOperands
    exact ⟨by simp [hBytes], .cons hRead hAll⟩

/-- Operands that are of their formats are read back if each of them is. -/
theorem forall₂_read (h : List.Forall₂ Operand.Is operands formats) :
    List.Forall₂ (Read a) operands formats ↔
      ∀ p ∈ operands.zip formats, Operand.Recovered a p.1 p.2 := by
  induction h with
  | nil => simp
  | cons hIs _ ih => simp [ih, Read, hIs]

/-- An operand of `OP_TCF_offset` is a number, however many bits it is read into. -/
theorem formatIn_is {pieces : Bool} {o : UInt8} (hFormat : format o = some formats)
    (hIs : List.Forall₂ Operand.Is operands formats) :
    ∃ formats, formatIn pieces o = some formats ∧ List.Forall₂ Operand.Is operands formats := by
  unfold formatIn
  split
  · rename_i hOffset
    rw [hOffset.1] at hFormat
    cases hFormat
    have hSame (x : Operand) (h : x.Is (.uleb 64)) : x.Is (.uleb 32) := by cases x <;> exact h
    cases hIs with
    | cons hNumber hNil => exact ⟨_, rfl, .cons (hSame _ hNumber) hNil⟩
  · exact ⟨formats, hFormat, hIs⟩

/-- The plain operations are those whose operands are read back. -/
theorem plainOp_iff {pieces : Bool} {o : UInt8} (h : OpShape o operands) :
    PlainOp a pieces o operands ↔
      ∃ formats, formatIn pieces o = some formats ∧ List.Forall₂ (Read a) operands formats := by
  cases h with
  | plain hFormat hIs =>
    have hKind : o ∉ [Op.gnuConstType, Op.gnuRegvalType] := by
      intro ho
      simp only [List.mem_cons, List.not_mem_nil, or_false] at ho
      rcases ho with rfl | rfl <;> cases hFormat
    have hOffset : o = Op.basereg → operands.length = 1 := by
      rintro rfl
      cases hFormat
      exact hIs.length_eq
    obtain ⟨formats, hFormat, hIs⟩ := @formatIn_is _ _ pieces _ hFormat hIs
    simp only [PlainOp, hKind, not_false_iff, true_and, hFormat, Option.getD_some,
      Option.some.injEq, exists_eq_left', forall₂_read hIs]
    exact and_iff_right hOffset
  | basereg hRaw =>
    refine iff_of_false (fun h => absurd (h.2.1 rfl) (by simp)) ?_
    rintro ⟨formats, hFormat, hRead⟩
    cases hFormat
    cases hRead with
    | cons _ hRest => cases hRest
  | constType =>
    refine iff_of_false (fun h => h.1 (by simp)) ?_
    rintro ⟨formats, hFormat, -⟩
    cases hFormat
  | regvalType =>
    refine iff_of_false (fun h => h.1 (by simp)) ?_
    rintro ⟨formats, hFormat, -⟩
    cases hFormat

theorem u3LebBytes_ends (n : Nat) : Leb128.Ends (u3LebBytes n) := by
  have hByte : ∀ k < 256, (UInt8.ofNat k).toNat = k := fun k hk => by
    simp
    omega
  refine Leb128.ends_cons ?_ (Leb128.ends_cons ?_ ?_)
  · rw [hByte _ (by omega)]
    omega
  · rw [hByte _ (by omega)]
    omega
  · show (UInt8.ofNat (n / 16384 % 128)).toNat < 128
    rw [hByte _ (by omega)]
    omega

/-- Three bytes are enough for 21 bits. -/
theorem value_u3LebBytes (n : Nat) : Leb128.value (u3LebBytes n) = n % 2 ^ 21 := by
  simp [u3LebBytes, Leb128.value]
  omega

/-- The operations with instructions of their own are not read with `formatIn`. -/
theorem special_of_format {pieces : Bool} {o : UInt8} (h : formatIn pieces o = some formats) :
    o ≠ Op.implicitValue ∧ o ≠ Op.gnuVariableValue ∧ o ≠ Op.gnuEntryValue ∧ o ≠ Op.tcfSwitch := by
  refine ⟨?_, ?_, ?_, ?_⟩ <;>
    · rintro rfl
      cases h

variable {v : Visit}

theorem walkAux_op {o : UInt8} (h : formatIn (v []) o = some formats) (fuel : Nat)
    (bytes : List UInt8) : walkAux big a (fuel + 1) v (o :: bytes) =
      (readOperands a formats bytes).bind fun p =>
        (walkAux big a fuel v.next p.2).map fun rest => .op o p.1 rest := by
  obtain ⟨h1, h2, h3, h4⟩ := special_of_format h
  simp only [walkAux, h1, h2, h3, h4, if_false, h, Option.bind_some]

/-- The walk over a table takes the first case apart. -/
theorem walkCases_cons {addr size : List UInt8} {body : Code} {rest : Cases}
    (hAddr : Leb128.Ends addr)
    (hSize : Leb128.Ends size)
    (hLess : addr.length + size.length + (body.bytes big).length < 0x10000)
    (fuel : Nat) :
    walkCases big a (fuel + 1) v ((Cases.cons addr size body rest).bytes big ++ [0, 0]) =
      (walkAux big a fuel v.inner (body.bytes big)).bind fun body =>
        (walkCases big a fuel v.next (rest.bytes big ++ [0, 0])).map fun rest =>
          .cons addr size body rest := by
  have hBody : (addr ++ (size ++ body.bytes big)).length =
      addr.length + size.length + (body.bytes big).length := by
    simp [Nat.add_assoc]
  have hBytes : (Cases.cons addr size body rest).bytes big ++ [0, 0] =
      u2Bytes big (addr.length + size.length + (body.bytes big).length) ++
        ((addr ++ (size ++ body.bytes big)) ++ (rest.bytes big ++ [0, 0])) := by
    simp [Cases.bytes]
  have hPos : 0 < addr.length := List.length_pos_of_ne_nil (Leb128.ends_ne_nil hAddr)
  rw [hBytes, walkCases, takeU2_append big hLess, Option.bind_some, if_neg (by omega),
    takeBytes_append hBody, Option.bind_some, Leb128.takeNumber_append hAddr, Option.bind_some,
    Leb128.takeNumber_append hSize, Option.bind_some]

/-! ## What is read back -/

mutual

/-- Operations that are plain are read back. -/
theorem walkAux_plain : ∀ (c : Code) {v : Visit}, c.Shape big → c.Plain big a v → ∀ fuel : Nat,
    (c.bytes big).length < fuel → walkAux big a fuel v (c.bytes big) = some c
  | .nil, _, _, _, fuel + 1, _ => rfl
  | .op o operands rest, _, hShape, hPlain, fuel + 1, hFuel => by
    obtain ⟨formats, hFormat, hRead⟩ := (plainOp_iff hShape.1).mp hPlain.1
    rw [Code.bytes, List.length_cons, List.length_append] at hFuel
    rw [Code.bytes, walkAux_op hFormat, readOperands_append hRead]
    simp [walkAux_plain rest hShape.2 hPlain.2 fuel (by omega)]
  | .implicitValue size block rest, _, hShape, hPlain, fuel + 1, hFuel => by
    rw [Code.bytes, List.length_cons, List.length_append, List.length_append] at hFuel
    rw [Code.bytes, walkAux, if_pos rfl, Leb128.takeNumber_append hShape.1, Option.bind_some,
      takeBytes_append hShape.2.1.symm]
    simp [walkAux_plain rest hShape.2.2 hPlain fuel (by omega)]
  | .variableValue id rest, _, _, hPlain, _, _ => hPlain.elim
  | .entryValue body rest, _, hShape, hPlain, fuel + 1, hFuel => by
    rw [Code.bytes, List.length_cons, List.length_append, List.length_append] at hFuel
    have hSize : (body.bytes big).length =
        Leb128.value (u3LebBytes (body.bytes big).length) % 2 ^ 32 := by
      have := hPlain.1
      rw [value_u3LebBytes]
      omega
    rw [Code.bytes, walkAux, if_neg (by decide), if_neg (by decide), if_pos rfl,
      Leb128.takeNumber_append (u3LebBytes_ends _), Option.bind_some, takeBytes_append hSize,
      Option.bind_some, walkAux_plain body hShape.1 hPlain.2.1 fuel (by omega)]
    simp [walkAux_plain rest hShape.2 hPlain.2.2 fuel (by omega)]
  | .tcfSwitch cases rest, _, hShape, hPlain, fuel + 1, hFuel => by
    rw [Code.bytes, List.length_cons, List.length_append, ← List.append_assoc,
      List.length_append, List.length_append, List.length_cons, List.length_singleton] at hFuel
    have hTable : (cases.bytes big ++ [0, 0]).length = (cases.bytes big).length + 2 := by simp
    rw [Code.bytes, walkAux, if_neg (by decide), if_neg (by decide), if_neg (by decide), if_pos rfl,
      takeU2_append big (by have := hShape.1; omega), Option.bind_some, ← List.append_assoc,
      takeBytes_append hTable, Option.bind_some,
      walkCases_plain cases hShape.2.1 hPlain.1 (by have := hShape.1; omega) fuel (by omega)]
    simp [walkAux_plain rest hShape.2.2 hPlain.2 fuel (by omega)]

theorem walkCases_plain : ∀ (cs : Cases) {v : Visit}, cs.Shape big → cs.Plain big a v →
    (cs.bytes big).length < 0x10000 → ∀ fuel : Nat, (cs.bytes big).length + 1 < fuel →
    walkCases big a fuel v (cs.bytes big ++ [0, 0]) = some cs
  | .nil, _, _, _, _, fuel + 1, _ => by
    cases big <;> rfl
  | .cons addr size body rest, _, hShape, hPlain, hSize, fuel + 1, hFuel => by
    rw [Cases.bytes, List.length_append, List.length_append, List.length_append,
      List.length_append, u2Bytes_length] at hSize hFuel
    rw [walkCases_cons hShape.1 hShape.2.1 (by omega),
      walkAux_plain body hShape.2.2.1 hPlain.1 fuel (by omega)]
    simp [walkCases_plain rest hShape.2.2.2 hPlain.2 (by omega) fuel (by omega)]

end

/-! ## What is not -/

/-- How instructions come to be read. -/
theorem walkAux_eq_some {fuel : Nat} {bytes : List UInt8} {c : Code}
    (h : walkAux big a fuel v bytes = some c) :
    match c with
    | .nil => bytes = []
    | .op o operands rest => ∃ f x formats y, bytes = o :: x ∧ formatIn (v []) o = some formats ∧
        readOperands a formats x = some (operands, y) ∧ walkAux big a f v.next y = some rest
    | .implicitValue size block rest => ∃ f x y z, bytes = Op.implicitValue :: x ∧
        Leb128.takeNumber x = some (size, y) ∧
        takeBytes (Leb128.value size % 2 ^ 32) y = some (block, z) ∧
        walkAux big a f v.behindValue z = some rest
    | .variableValue id rest => ∃ f x y, bytes = Op.gnuVariableValue :: x ∧
        takeString x = some (id, y) ∧ walkAux big a f v.next y = some rest
    | .entryValue body rest => ∃ f x size y p q, bytes = Op.gnuEntryValue :: x ∧
        Leb128.takeNumber x = some (size, y) ∧
        takeBytes (Leb128.value size % 2 ^ 32) y = some (p, q) ∧
        walkAux big a f v.inner p = some body ∧ walkAux big a f v.next q = some rest
    | .tcfSwitch cases rest => ∃ f x n y p q, bytes = Op.tcfSwitch :: x ∧
        takeU2 big x = some (n, y) ∧ takeBytes n y = some (p, q) ∧
        walkCases big a f v.inner p = some cases ∧ walkAux big a f v.next q = some rest := by
  cases bytes with
  | nil =>
    cases fuel <;>
      · cases h
        rfl
  | cons o x =>
    cases fuel with
    | zero => cases h
    | succ f =>
      unfold walkAux at h
      split_ifs at h with h1 h2 h3 h4 <;>
        simp only [Option.bind_eq_some_iff, Option.map_eq_some_iff] at h
      · obtain ⟨⟨size, y⟩, hSize, ⟨block, z⟩, hBlock, rest, hRest, rfl⟩ := h
        exact ⟨f, x, y, z, by rw [h1], hSize, hBlock, hRest⟩
      · obtain ⟨⟨id, y⟩, hId, rest, hRest, rfl⟩ := h
        exact ⟨f, x, y, by rw [h2], hId, hRest⟩
      · obtain ⟨⟨size, y⟩, hSize, ⟨p, q⟩, hTake, body, hBody, rest, hRest, rfl⟩ := h
        exact ⟨f, x, size, y, p, q, by rw [h3], hSize, hTake, hBody, hRest⟩
      · obtain ⟨⟨n, y⟩, hSize, ⟨p, q⟩, hTake, cases', hCases, rest, hRest, rfl⟩ := h
        exact ⟨f, x, n, y, p, q, by rw [h4], hSize, hTake, hCases, hRest⟩
      · obtain ⟨formats, hFormat, ⟨operands, y⟩, hOperands, rest, hRest, rfl⟩ := h
        exact ⟨f, x, formats, y, rfl, hFormat, hOperands, hRest⟩

/-- An id that is followed by a zero by chance only: one instruction is missing then. -/
theorem walkAux_ne_zero {c : Code} (hShape : c.Shape big) {fuel : Nat} {bytes : List UInt8}
    (hPrefix : 0 :: bytes <+: c.bytes big) : walkAux big a fuel v bytes ≠ some c := by
  intro h
  induction c using Code.spine generalizing fuel bytes v with
  | nil => exact absurd hPrefix.length_le (by simp [Code.bytes])
  | op o operands rest ih =>
    obtain ⟨rfl, hTail⟩ := List.cons_prefix_cons.mp hPrefix
    obtain ⟨f, x, formats, y, rfl, hFormat, hOperands, hRest⟩ := walkAux_eq_some h
    obtain rfl : formats = [] := by
      have hZero : formatIn (v []) 0 = some [] := if_neg fun h => absurd h.1 (by decide)
      rw [hZero] at hFormat
      cases hFormat
      rfl
    cases hOperands
    exact ih hShape.2 hTail hRest
  | implicitValue size block rest =>
    exact absurd (List.cons_prefix_cons.mp hPrefix).1 (by decide)
  | variableValue id rest => exact absurd (List.cons_prefix_cons.mp hPrefix).1 (by decide)
  | entryValue body rest => exact absurd (List.cons_prefix_cons.mp hPrefix).1 (by decide)
  | tcfSwitch cases rest => exact absurd (List.cons_prefix_cons.mp hPrefix).1 (by decide)

mutual

/-- Instructions that are read from their bytes, or from a part of them, are read from all
of them and are plain. -/
theorem walk_whole : ∀ (c : Code) {v : Visit}, c.Shape big → ∀ (fuel : Nat) (bytes : List UInt8),
    bytes <+: c.bytes big → walkAux big a fuel v bytes = some c →
    bytes = c.bytes big ∧ c.Plain big a v
  | .nil, _, _, _, _, hPrefix, _ => ⟨List.prefix_nil.mp hPrefix, trivial⟩
  | .op o operands rest, _, hShape, _, _, hPrefix, h => by
    obtain ⟨f, x, formats, y, rfl, hFormat, hOperands, hRest⟩ := walkAux_eq_some h
    obtain ⟨rfl, hRead⟩ := readOperands_eq_some hOperands
    have hTail := (List.cons_prefix_cons.mp hPrefix).2
    rw [List.prefix_append_right_inj] at hTail
    obtain ⟨rfl, hPlain⟩ := walk_whole rest hShape.2 f y hTail hRest
    exact ⟨rfl, (plainOp_iff hShape.1).mpr ⟨formats, hFormat, hRead⟩, hPlain⟩
  | .implicitValue size block rest, _, hShape, _, _, hPrefix, h => by
    obtain ⟨f, x, y, z, rfl, hSize, hBlock, hRest⟩ := walkAux_eq_some h
    obtain ⟨rfl, -⟩ := Leb128.takeNumber_eq_some hSize
    obtain ⟨rfl, -⟩ := takeBytes_eq_some.mp hBlock
    have hTail := (List.cons_prefix_cons.mp hPrefix).2
    rw [List.prefix_append_right_inj, List.prefix_append_right_inj] at hTail
    obtain ⟨rfl, hPlain⟩ := walk_whole rest hShape.2.2 f z hTail hRest
    exact ⟨rfl, hPlain⟩
  | .variableValue id rest, _, hShape, _, _, hPrefix, h => by
    obtain ⟨f, x, y, rfl, hId, hRest⟩ := walkAux_eq_some h
    obtain rfl := takeString_eq_some hId
    have hTail := (List.cons_prefix_cons.mp hPrefix).2
    rw [List.prefix_append_right_inj] at hTail
    -- without a zero the id would have to end in what comes behind the code
    exact absurd hRest (walkAux_ne_zero hShape.2.2 hTail)
  | .entryValue body rest, _, hShape, _, _, hPrefix, h => by
    obtain ⟨f, x, size, y, p, q, rfl, hSize, hTake, hBody, hRest⟩ := walkAux_eq_some h
    obtain ⟨rfl, hEnds⟩ := Leb128.takeNumber_eq_some hSize
    obtain ⟨rfl, hLength⟩ := takeBytes_eq_some.mp hTake
    obtain ⟨w, hw⟩ := (List.cons_prefix_cons.mp hPrefix).2
    -- The size that is read is the one that was put there.
    obtain ⟨rfl, hTail⟩ : size = u3LebBytes (body.bytes big).length ∧
        p ++ (q ++ w) = body.bytes big ++ rest.bytes big := by
      have hTaken := congrArg Leb128.takeNumber hw
      rw [List.append_assoc, Leb128.takeNumber_append hEnds,
        Leb128.takeNumber_append (u3LebBytes_ends _), Option.some.injEq, Prod.mk.injEq,
        List.append_assoc] at hTaken
      exact hTaken
    rw [value_u3LebBytes] at hLength
    have hPart : p <+: body.bytes big :=
      List.prefix_of_prefix_length_le ⟨q ++ w, hTail⟩ (List.prefix_append _ _) (by omega)
    obtain ⟨rfl, hPlain⟩ := walk_whole body hShape.1 f p hPart hBody
    obtain ⟨rfl, hPlainRest⟩ := walk_whole rest hShape.2 f q
      ⟨w, List.append_cancel_left hTail⟩ hRest
    exact ⟨rfl, by omega, hPlain, hPlainRest⟩
  | .tcfSwitch cases rest, _, hShape, _, _, hPrefix, h => by
    obtain ⟨f, x, n, y, p, q, rfl, hSize, hTake, hCases, hRest⟩ := walkAux_eq_some h
    obtain ⟨rfl, hLength⟩ := takeBytes_eq_some.mp hTake
    obtain ⟨⟨l, l'⟩, hTake2, hEq⟩ := Option.map_eq_some_iff.mp hSize
    cases hEq
    obtain ⟨rfl, hTwo⟩ := takeBytes_eq_some.mp hTake2
    obtain ⟨w, hw⟩ := (List.cons_prefix_cons.mp hPrefix).2
    have hSmall := hShape.1
    have hTable : (cases.bytes big ++ [0, 0]).length = (cases.bytes big).length + 2 := by simp
    obtain ⟨rfl, hTail⟩ : l = u2Bytes big ((cases.bytes big).length + 2) ∧
        p ++ (q ++ w) = (cases.bytes big ++ [0, 0]) ++ rest.bytes big := by
      have hAll : l ++ (p ++ (q ++ w)) = u2Bytes big ((cases.bytes big).length + 2) ++
          ((cases.bytes big ++ [0, 0]) ++ rest.bytes big) := by simpa using hw
      exact List.append_inj hAll (by simp [hTwo])
    rw [readUint_u2Bytes big (by omega)] at hLength
    obtain ⟨rfl, hRestBytes⟩ := List.append_inj hTail (by omega)
    obtain ⟨rfl, hPlainRest⟩ := walk_whole rest hShape.2.2 f q ⟨w, hRestBytes⟩ hRest
    exact ⟨by simp [Code.bytes], walkCases_prefix cases hShape.2.1 (by omega) f hCases, hPlainRest⟩

theorem walkCases_prefix : ∀ (cs : Cases) {v : Visit}, cs.Shape big →
    (cs.bytes big).length < 0x10000 → ∀ fuel : Nat,
    walkCases big a fuel v (cs.bytes big ++ [0, 0]) = some cs → cs.Plain big a v
  | .nil, _, _, _, _, _ => trivial
  | .cons addr size body rest, _, hShape, hSize, fuel + 1, h => by
    rw [Cases.bytes, List.length_append, List.length_append, List.length_append,
      List.length_append, u2Bytes_length] at hSize
    rw [walkCases_cons hShape.1 hShape.2.1 (by omega)] at h
    obtain ⟨body', hBody', hRest⟩ := Option.bind_eq_some_iff.mp h
    obtain ⟨rest', hRest', hEq⟩ := Option.map_eq_some_iff.mp hRest
    cases hEq
    exact ⟨(walk_whole body hShape.2.2.1 fuel _ (List.prefix_refl _) hBody').2,
      walkCases_prefix rest hShape.2.2.2 (by omega) fuel hRest'⟩

end

/-- Well-formed instructions are read back exactly if they are plain. -/
theorem walk_iff {c : Code} (hShape : c.Shape big) :
    walk big a v (c.bytes big) = some c ↔ c.Plain big a v :=
  ⟨fun h => (walk_whole c hShape _ _ (List.prefix_refl _) h).2,
    fun h => walkAux_plain c hShape h _ (Nat.lt_succ_self _)⟩

end TcfAgent.Dwarf

namespace TcfAgent.DwarfTransform

open TcfAgent.Dwarf

/-! ## What the transformation emits -/

/-- What is emitted for an accepted expression is read back in a visit, to the last byte and
operation by operation, exactly if all operations that were to be emitted are plain there. -/
theorem transform_walk {Obj Val : Type} {env : Env Obj Val} {fuel : Nat}
    {infos : List (ExprInfo Obj)} {code : Code} {range : Range}
    (h : dwarfTransformExpression env fuel infos = .ok (code, range)) (a : Nat) (v : Visit) :
    walk env.bigEndian a v (code.bytes env.bigEndian) = some code ↔
      code.Plain env.bigEndian a v :=
  walk_iff (addExpressionList_shape (addExpression_shape env fuel) h)

/-- `branch_iff` and this agree that `OP_GNU_convert` is read with two operands. -/
theorem transform_walk_skipConvert :
    walk false 8 (fun _ => false) (skipConvertCode.bytes false) = some skipConvertCode :=
  (@transform_walk _ _ plainEnv 10 [skipConvert] skipConvertCode ⟨0, 0⟩ (by decide) 8 _).mpr
    ⟨by decide, by decide, by decide, trivial⟩

/-- Every object is found, and its symbol has the id `@S`. -/
def symbolEnv : Env Unit Unit :=
  { plainEnv with
    relocateLink := fun _ _ _ value => .ok value
    findObject := fun _ _ => some ()
    symbolId := fun _ => .ok ⟨[0x40, 0x53], by decide, by decide⟩ }

theorem variableValue_size : 6 < 2 ^ 63 := by decide

/-- `OP_GNU_variable_value` of the object at 16, and `OP_stack_value`. -/
def variableValue : ExprInfo Unit where
  object := ()
  exprAddr := [0xfd, 16, 0, 0, 0, 0x9f]
  exprSize := 6
  hSize := variableValue_size

/-- The id of the symbol is taken to go on into the next operation. -/
theorem variableValue_lost : ¬ ∀ (infos : List (ExprInfo Unit)) (code : Code) (range : Range),
    dwarfTransformExpression symbolEnv 9 infos = .ok (code, range) →
    ∀ v, walk false 8 v (code.bytes false) = some code := by
  intro h
  have := h [variableValue] (.variableValue [0x40, 0x53] (.op 0x9f [] .nil)) ⟨0, 0⟩
    (by decide) fun _ => false
  revert this
  decide

end TcfAgent.DwarfTransform
