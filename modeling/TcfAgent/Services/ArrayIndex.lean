import TcfAgent.Services.RegisterFields

/-!
# Elements of arrays

`op_index` of `services/expressions.c`. An array that is not in the memory of the target, or whose
elements are packed, is loaded, and the bits of the element are gathered from it; a signed element
is extended by `bit_sign_extend`.

Main results:

* `gatherBits_ok`    — which bits the loop over an element puts;
* `isElement_plain`  — when the bits are the element without a copied sign;
* `element_packed`   — which packed elements are what the array has;
* `opIndex_iff`      — for which contents the element is what the array has at the index.
-/

namespace TcfAgent.ArrayIndex

open TcfAgent.Lib TcfAgent.Location TcfAgent.Pieces
open TcfAgent.VmEval (RegisterDefinition LocationPiece)
open TcfAgent.Expressions (Mode)

/-! ## Values -/

inductive TypeClass where
  | array | pointer | function | integer | cardinal | other (code : Nat)
deriving DecidableEq, Repr

variable {Sym Frame : Type}

structure LocationState (Frame : Type) where
  pieces     : List LocationPiece
  stackFrame : Option Frame

/-- What `op_index` reads and changes of a `Value`. A pointer to data is the bytes from there on. -/
structure Value (Sym Frame : Type) where
  sym       : Option Sym
  type      : Option Sym
  typeClass : TypeClass
  value     : Option (List UInt8)
  loc       : Option (LocationState Frame)
  address   : Word
  size      : Word
  remote    : Bool
  constant  : Bool
  bigEndian : Bool
  bitStride : BitVec 32

/-- The context and the symbols service. `stopped` stands for memory that can be read, `toUns` for
the number that a pointer is, `endianness` and `bitStride` for what `set_value_endianness` and
`set_value_props` find out. -/
structure Env (Sym Frame : Type) where
  refuse        : Option Frame → Refusals
  target        : Option Frame → Target
  stopped       : Bool
  readMem       : Word → (size : Nat) → Except Nat (Vector UInt8 size)
  getBaseType   : Sym → Except Nat (Option Sym)
  getTypeClass  : Sym → Except Nat TypeClass
  getSize       : Sym → Except Nat Word
  getLowerBound : Sym → Except Nat Word
  toUns         : Value Sym Frame → Result Word
  endianness    : Sym → Result Bool
  bitStride     : Sym → TypeClass → Result (BitVec 32)

/-- `error(errno, text)` -/
def orError {α : Type} (text : String) : Except Nat α → Result α
  | .ok a => .ok a
  | .error errno => raised (strException errno text)

/-- ERR_INV_EXPRESSION -/
def invExpression : Nat := 0x20012

/-- `error(ERR_INV_EXPRESSION, text)` -/
def invalid {α : Type} (text : String) : Result α := raised (strException invExpression text)

/-! ## Signs -/

/-- `while (offs > 0) { offs--; buf[offs / 8] |= 1 << (7 - offs % 8); }` -/
def setBelow : Nat → List UInt8 → Result (List UInt8)
  | 0, buf => .ok buf
  | offs + 1, buf => do
    inBuffer buf offs
    setBelow offs (putAt true buf offs true)

/-- `while (offs < v->size * 8 - 1) { offs++; buf[offs / 8] |= 1 << (offs % 8); }` -/
def setAbove : (turns offs : Nat) → List UInt8 → Result (List UInt8)
  | 0, _, buf => .ok buf
  | turns + 1, offs, buf => do
    inBuffer buf (offs + 1)
    setAbove turns (offs + 1) (putAt false buf (offs + 1) true)

/-- The first bit of the number, as `unsigned`. -/
def signOffset (big : Bool) (size : Word) (bitCnt : Nat) : Nat :=
  if big then Pieces.unsigned (size.toNat * 8 + 2 ^ 32 - bitCnt) else bitCnt - 1

/-- The loops of `bit_sign_extend`. The second one has no end where a bit number of type `unsigned`
cannot reach the last bit. -/
def copySign (big : Bool) (size : Word) (offs : Nat) (buf : List UInt8) : Result (List UInt8) :=
  if big then setBelow offs buf
  else if 2 ^ 32 ≤ (size * 8 - 1).toNat then .error .fault
  else setAbove ((size * 8 - 1).toNat - offs) offs buf

/-- `bit_sign_extend` -/
def bitSignExtend (big : Bool) (size : Word) (bitCnt : Nat) (buf : List UInt8) :
    Result (List UInt8) :=
  if 0 < bitCnt ∧ bitCnt < (size * 8).toNat then do
    inBuffer buf (signOffset big size bitCnt)
    if bitAt big buf (signOffset big size bitCnt) then
      copySign big size (signOffset big size bitCnt) buf
    else return buf
  else return buf

/-! ## Loading -/

/-- The bytes of a value that is as large as its type. -/
def extendSize (big : Bool) (size : Nat) (bytes : List UInt8) : List UInt8 :=
  let zeros := List.replicate (size - bytes.length) 0
  if big then zeros ++ bytes else bytes ++ zeros

variable (env : Env Sym Frame)

/-- `sign_extend`, for the bytes of a value; the size is the number of bytes. -/
def signExtend (v : Value Sym Frame) (loc : LocationState Frame) (bytes : List UInt8) :
    Result (List UInt8) :=
  match v.type with
  | none => .ok bytes
  | some type => do
    let size ← orError "Cannot retrieve value type size" (env.getSize type)
    let bytes := extendSize v.bigEndian size.toNat bytes
    if v.typeClass = .integer then
      bitSignExtend v.bigEndian (BitVec.ofNat 64 bytes.length)
        (Pieces.unsigned (loc.pieces.map pieceBits).sum) bytes
    else return bytes

/-- `load_value` -/
def loadValue (v : Value Sym Frame) : Result (Value Sym Frame) :=
  if v.remote then
    if v.constant then .error .fault
    else if env.stopped = false then
      raised (strException RegisterFields.isRunning "Cannot read memory if not stopped")
    else do
      let bytes ← orError "Can't read variable value" (env.readMem v.address v.size.toNat)
      return { v with value := some bytes.toList, remote := false }
  else
    match v.value, v.loc with
    | some _, _ => .ok v
    | none, some loc => do
      let bytes ← readLocationPieces (env.refuse loc.stackFrame) v.bigEndian loc.pieces
        (env.target loc.stackFrame)
      let bytes ← signExtend env v loc bytes
      return { v with value := some bytes, size := BitVec.ofNat 64 bytes.length }
    | none, none => raised (strException Err.other "Has no value")

/-- The size that a value of a symbol has where it is not set yet. -/
def symbolSize (v : Value Sym Frame) : Result (Value Sym Frame) :=
  match v.sym with
  | none => .ok v
  | some sym =>
    if v.size = 0 then do
      let size ← orError "Cannot retrieve symbol size" (env.getSize sym)
      return { v with size := size }
    else .ok v

/-! ## Indexing -/

/-- `if (val[y / 8] & bit_mask(v, y)) buf[z / 8] |= bit_mask(v, z)`, for the bits from `x` on. -/
def gatherBits (big : Bool) (val : List UInt8) (bitOffs bufOffs : Nat) :
    (turns x : Nat) → List UInt8 → Result (List UInt8)
  | 0, _, buf => .ok buf
  | turns + 1, x, buf => do
    inBuffer val (Pieces.unsigned (x + bitOffs))
    if bitAt big val (Pieces.unsigned (x + bitOffs)) then
      inBuffer buf (Pieces.unsigned (x + bufOffs))
      gatherBits big val bitOffs bufOffs turns (x + 1)
        (putAt big buf (Pieces.unsigned (x + bufOffs)) true)
    else gatherBits big val bitOffs bufOffs turns (x + 1) buf

/-- `v->big_endian ? (unsigned)(size * 8 - v->bit_stride) : 0` -/
def bufferOffset (big : Bool) (size : Word) (stride : BitVec 32) : Nat :=
  if big then Pieces.unsigned (size * 8 - stride.setWidth 64).toNat else 0

/-- The element of a packed array, whose size `v->size` still is. -/
def packedElement (big : Bool) (val : List UInt8) (arraySize size bitOffs : Word)
    (stride : BitVec 32) (typeClass : TypeClass) : Result (List UInt8) := do
  let buf ← gatherBits big val bitOffs.toNat (bufferOffset big size stride) stride.toNat 0
    (List.replicate size.toNat 0)
  if typeClass = .integer then bitSignExtend big arraySize stride.toNat buf
  else return buf

/-- The value of an array, or what a pointer points to. -/
def elementAt (v : Value Sym Frame) (typeClass : TypeClass) (size distance : Word) :
    Result (Value Sym Frame) :=
  if v.remote = true ∧ v.bitStride = 0 then .ok { v with address := v.address + distance * size }
  else do
    let v ← symbolSize env v
    let v ← loadValue env v
    match v.value with
    | none => .error .fault
    | some bytes =>
      if v.bitStride = 0 then .ok { v with value := some (bytes.drop (distance * size).toNat) }
      else do
        let buf ← packedElement v.bigEndian bytes v.size size (distance * v.bitStride.setWidth 64)
          v.bitStride typeClass
        return { v with value := some buf }

/-- How far the element is from the first one. -/
def distanceTo (v : Value Sym Frame) (type : Sym) (index : Word) : Result Word :=
  if v.typeClass = .array then do
    let lower ← orError "Cannot get array lower bound" (env.getLowerBound type)
    if index.slt lower then invalid "Invalid index" else return index - lower
  else return index

/-- The value that a pointer points to. -/
def pointTo (v : Value Sym Frame) (type : Sym) : Result (Value Sym Frame) := do
  let v ← symbolSize env v
  let address ← env.toUns v
  let big ← env.endianness type
  return { v with
    sym := none, address := address, remote := true, loc := none, value := none, constant := false,
    bigEndian := big }

/-- What a pointer becomes; one that the compiler has left out points to what it stood for. -/
def dereference (v : Value Sym Frame) (type : Sym) : Result (Value Sym Frame) :=
  match v.loc with
  | some ⟨[p], frame⟩ =>
    if p.implicitPointer ≠ 0 then
      .ok { v with
        sym := none
        loc := some ⟨[{ p with implicitPointer := p.implicitPointer - 1 }], frame⟩ }
    else pointTo env v type
  | _ => pointTo env v type

def elementType (v : Value Sym Frame) : Result (Sym × Sym × TypeClass) :=
  if v.typeClass ≠ .array ∧ v.typeClass ≠ .pointer then invalid "Array or pointer expected"
  else
    match v.type with
    | none => invalid "Value type is unknown"
    | some arrayType => do
      let base ← orError "Cannot get array element type" (env.getBaseType arrayType)
      match base with
      | none => invalid "Array element type is unknown"
      | some type => do
        let typeClass ← orError "Cannot get type class of the array element"
          (env.getTypeClass type)
        return (arrayType, type, typeClass)

/-- A function has no size. -/
def elementSize (type : Sym) (typeClass : TypeClass) : Result Word :=
  if typeClass = .function then .ok 0
  else orError "Cannot get array element size" (env.getSize type)

/-- The value at the index, in `MODE_NORMAL`. -/
def selectElement (mode : Mode) (v : Value Sym Frame) (arrayType : Sym) (typeClass : TypeClass)
    (size : Word) (index : Result Word) : Result (Value Sym Frame) :=
  if mode = .normal then do
    let index ← index
    let distance ← distanceTo env v arrayType index
    elementAt env v typeClass size distance
  else .ok v

/-- What is indexed. -/
def indexed (v : Value Sym Frame) (type : Sym) : Result (Value Sym Frame) :=
  if v.typeClass = .pointer then dereference env v type else .ok v

/-- `op_index`, once the expression in the brackets has been read; `index` is what `to_int` makes
of it. -/
def opIndex (mode : Mode) (v : Value Sym Frame) (index : Result Word) :
    Result (Value Sym Frame) :=
  if mode = .skip then .ok v
  else do
    let r ← elementType env v
    let v ← indexed env v r.2.1
    let size ← elementSize env r.2.1 r.2.2
    let v ← selectElement env mode v r.1 r.2.2 size index
    let stride ← env.bitStride r.2.1 r.2.2
    return { v with
      sym := none, loc := none, size := size, type := some r.2.1, typeClass := r.2.2,
      bitStride := stride }

/-! ## The loops -/

section

variable {big : Bool} {val buf buf' : List UInt8} {bitOffs bufOffs n x offs j : Nat}

theorem inBuffer_fault (h : ¬ j / 8 < buf.length) : inBuffer buf j = .error .fault := if_neg h

/-- Which bits the loop over an element puts. -/
theorem gatherBits_ok (h : gatherBits big val bitOffs bufOffs n x buf = .ok buf') :
    buf'.length = buf.length ∧ ∀ j, bitAt big buf' j = true ↔ bitAt big buf j = true ∨
      ∃ k, x ≤ k ∧ k < x + n ∧ Pieces.unsigned (k + bufOffs) = j ∧
        bitAt big val (Pieces.unsigned (k + bitOffs)) = true := by
  induction n generalizing x buf with
  | zero =>
    cases h
    refine ⟨rfl, fun j => ⟨.inl, ?_⟩⟩
    rintro (hj | ⟨k, hLe, hLt, -⟩)
    · exact hj
    · omega
  | succ n ih =>
    obtain ⟨_, -, hRest⟩ := Fallible.bind_eq_ok h
    by_cases hBit : bitAt big val (Pieces.unsigned (x + bitOffs)) = true
    · rw [if_pos hBit] at hRest
      obtain ⟨_, hIn, hTail⟩ := Fallible.bind_eq_ok hRest
      have hHere := inBuffer_lt hIn
      obtain ⟨hLength, hBits⟩ := ih hTail
      refine ⟨hLength.trans length_putAt, fun j => (hBits j).trans ?_⟩
      rw [bitAt_putAt hHere]
      constructor
      · rintro (hPut | ⟨k, hLe, hLt, hk, hSet⟩)
        · by_cases hSame : j = Pieces.unsigned (x + bufOffs)
          · exact .inr ⟨x, Nat.le_refl x, by omega, hSame.symm, hBit⟩
          · rw [if_neg hSame] at hPut
            exact .inl hPut
        · exact .inr ⟨k, by omega, by omega, hk, hSet⟩
      · rintro (hOld | ⟨k, hLe, hLt, hk, hSet⟩)
        · refine .inl ?_
          split
          · rfl
          · exact hOld
        · by_cases hFirst : k = x
          · subst hFirst
            exact .inl (if_pos hk.symm)
          · exact .inr ⟨k, by omega, by omega, hk, hSet⟩
    · rw [if_neg hBit] at hRest
      obtain ⟨hLength, hBits⟩ := ih hRest
      refine ⟨hLength, fun j => (hBits j).trans (or_congr_right ?_)⟩
      constructor
      · rintro ⟨k, hLe, hLt, hk⟩
        exact ⟨k, by omega, by omega, hk⟩
      · rintro ⟨k, hLe, hLt, hk, hSet⟩
        have hFirst : k ≠ x := by
          rintro rfl
          exact hBit hSet
        exact ⟨k, by omega, by omega, hk, hSet⟩

theorem gatherBits_total
    (hVal : ∀ k, x ≤ k → k < x + n → Pieces.unsigned (k + bitOffs) / 8 < val.length)
    (hBuf : ∀ k, x ≤ k → k < x + n → Pieces.unsigned (k + bufOffs) / 8 < buf.length) :
    ∃ buf', gatherBits big val bitOffs bufOffs n x buf = .ok buf' := by
  induction n generalizing x buf with
  | zero => exact ⟨buf, rfl⟩
  | succ n ih =>
    have hHere := hVal x (Nat.le_refl x) (by omega)
    have hThere := hBuf x (Nat.le_refl x) (by omega)
    have hNext : ∀ next : List UInt8, next.length = buf.length →
        ∃ buf', gatherBits big val bitOffs bufOffs n (x + 1) next = .ok buf' := by
      intro next hLength
      refine ih (fun k hLe hLt => hVal k (by omega) (by omega)) fun k hLe hLt => ?_
      rw [hLength]
      exact hBuf k (by omega) (by omega)
    rw [gatherBits, inBuffer_ok hHere]
    by_cases hBit : bitAt big val (Pieces.unsigned (x + bitOffs)) = true
    · obtain ⟨buf', hRun⟩ := hNext _ length_putAt
      refine ⟨buf', ?_⟩
      show (if bitAt big val (Pieces.unsigned (x + bitOffs)) = true then _ else _) = _
      rw [if_pos hBit, inBuffer_ok hThere]
      exact hRun
    · obtain ⟨buf', hRun⟩ := hNext _ rfl
      exact ⟨buf', (if_neg hBit).trans hRun⟩

theorem setBelow_ok (h : offs ≤ 8 * buf.length) :
    ∃ buf', setBelow offs buf = .ok buf' ∧ buf'.length = buf.length ∧
      ∀ j, bitAt true buf' j = true ↔ j < offs ∨ bitAt true buf j = true := by
  induction offs generalizing buf with
  | zero => exact ⟨buf, rfl, rfl, fun j => by simp⟩
  | succ offs ih =>
    have hHere : offs / 8 < buf.length := by omega
    have hRest : offs ≤ 8 * (putAt true buf offs true).length := by
      rw [length_putAt]
      omega
    obtain ⟨buf', hRun, hLength, hBits⟩ := ih hRest
    refine ⟨buf', ?_, hLength.trans length_putAt, fun j => (hBits j).trans ?_⟩
    · rw [setBelow, inBuffer_ok hHere]
      exact hRun
    · rw [bitAt_putAt hHere]
      by_cases hSame : j = offs
      · simp [hSame]
      · have hLess : j < offs + 1 ↔ j < offs := by omega
        rw [if_neg hSame, hLess]

theorem setAbove_ok (h : offs + n < 8 * buf.length) :
    ∃ buf', setAbove n offs buf = .ok buf' ∧ buf'.length = buf.length ∧
      ∀ j, bitAt false buf' j = true ↔ (offs < j ∧ j ≤ offs + n) ∨ bitAt false buf j = true := by
  induction n generalizing offs buf with
  | zero =>
    refine ⟨buf, rfl, rfl, fun j => ⟨.inr, ?_⟩⟩
    rintro (⟨hLt, hLe⟩ | hOld)
    · omega
    · exact hOld
  | succ n ih =>
    have hHere : (offs + 1) / 8 < buf.length := by omega
    have hRest : offs + 1 + n < 8 * (putAt false buf (offs + 1) true).length := by
      rw [length_putAt]
      omega
    obtain ⟨buf', hRun, hLength, hBits⟩ := ih hRest
    refine ⟨buf', ?_, hLength.trans length_putAt, fun j => (hBits j).trans ?_⟩
    · rw [setAbove, inBuffer_ok hHere]
      exact hRun
    · rw [bitAt_putAt hHere]
      by_cases hSame : j = offs + 1
      · subst hSame
        rw [if_pos rfl]
        exact ⟨fun _ => .inl (by omega), fun _ => .inr rfl⟩
      · have hLess : (offs + 1 < j ∧ j ≤ offs + 1 + n) ↔ (offs < j ∧ j ≤ offs + (n + 1)) := by omega
        rw [if_neg hSame, hLess]

/-- The loop leaves the buffer. -/
theorem setAbove_fault (hn : 0 < n) (h : 8 * buf.length ≤ offs + n) :
    setAbove n offs buf = .error .fault := by
  induction n generalizing offs buf with
  | zero => omega
  | succ n ih =>
    by_cases hHere : (offs + 1) / 8 < buf.length
    · rw [setAbove, inBuffer_ok hHere]
      refine ih (by omega) ?_
      rw [length_putAt]
      omega
    · rw [setAbove, inBuffer_fault hHere]
      rfl

variable {f : Failure}

theorem inBuffer_silent : inBuffer buf j ≠ .error (.raise f) := by
  unfold inBuffer
  split
  · exact fun h => by cases h
  · exact fun h => by cases h

/-- The loops raise no exception. -/
theorem gatherBits_silent :
    gatherBits big val bitOffs bufOffs n x buf ≠ .error (.raise f) := by
  induction n generalizing x buf with
  | zero => exact fun h => by cases h
  | succ n ih =>
    intro h
    rcases Fallible.bind_eq_error h with hIn | ⟨_, -, hRest⟩
    · exact inBuffer_silent hIn
    · split at hRest
      · rcases Fallible.bind_eq_error hRest with hIn | ⟨_, -, hTail⟩
        · exact inBuffer_silent hIn
        · exact ih hTail
      · exact ih hRest

theorem setBelow_silent : setBelow offs buf ≠ .error (.raise f) := by
  induction offs generalizing buf with
  | zero => exact fun h => by cases h
  | succ offs ih =>
    intro h
    rcases Fallible.bind_eq_error h with hIn | ⟨_, -, hRest⟩
    · exact inBuffer_silent hIn
    · exact ih hRest

theorem setAbove_silent : setAbove n offs buf ≠ .error (.raise f) := by
  induction n generalizing offs buf with
  | zero => exact fun h => by cases h
  | succ n ih =>
    intro h
    rcases Fallible.bind_eq_error h with hIn | ⟨_, -, hRest⟩
    · exact inBuffer_silent hIn
    · exact ih hRest

theorem bitSignExtend_silent {size : Word} {bitCnt : Nat} :
    bitSignExtend big size bitCnt buf ≠ .error (.raise f) := by
  intro h
  unfold bitSignExtend at h
  split at h
  · rcases Fallible.bind_eq_error h with hIn | ⟨_, -, hRest⟩
    · exact inBuffer_silent hIn
    · split at hRest
      · unfold copySign at hRest
        split at hRest
        · exact setBelow_silent hRest
        · split at hRest
          · cases hRest
          · exact setAbove_silent hRest
      · cases hRest
  · cases h

theorem packedElement_silent {arraySize size offset : Word} {stride : BitVec 32}
    {typeClass : TypeClass} :
    packedElement big val arraySize size offset stride typeClass ≠ .error (.raise f) := by
  intro h
  rcases Fallible.bind_eq_error h with hGather | ⟨buf, -, hRest⟩
  · exact gatherBits_silent hGather
  · split at hRest
    · exact bitSignExtend_silent hRest
    · cases hRest

end

/-! ## What the element should be -/

/-- An array and an index, without the contents. An element has the bits of its stride, a function
has no size, and no buffer of the host has more bytes. -/
structure Shape where
  length    : Nat
  size      : Word
  stride    : BitVec 32
  typeClass : TypeClass
  bigEndian : Bool
  lower     : Word
  index     : Word
  small     : length < 2 ^ 61
  fits      : stride.toNat ≤ 8 * size.toNat
  function  : typeClass = .function → size = 0

namespace Shape

variable (s : Shape)

/-- The bits from one element to the next one. -/
def width : Nat := if s.stride = 0 then 8 * s.size.toNat else s.stride.toNat

def distance : Int := s.index.toInt - s.lower.toInt

/-- The element lies in the array. -/
def InRange : Prop := 0 ≤ s.distance ∧ (s.distance.toNat + 1) * s.width ≤ 8 * s.length

/-- The first bit of the element in the array. -/
def position : Nat := s.distance.toNat * s.width

/-- Where the bits stand in the element. -/
def start : Nat := if s.bigEndian then 8 * s.size.toNat - s.width else 0

/-- The number of the sign among the bits. -/
def signBit : Nat := if s.bigEndian then 0 else s.width - 1

def sign (bytes : List UInt8) : Bool := bitAt s.bigEndian bytes (s.position + s.signBit)

/-- A bit of the element: one of the array, or the sign, or a zero. -/
def elementBit (bytes : List UInt8) (j : Nat) : Bool :=
  if s.start ≤ j ∧ j < s.start + s.width then bitAt s.bigEndian bytes (s.position + (j - s.start))
  else decide (s.typeClass = .integer ∧ j < 8 * s.size.toNat) && s.sign bytes

/-- These bytes are the element. -/
def IsElement (bytes buf : List UInt8) : Prop :=
  (buf.take s.size.toNat).length = s.size.toNat ∧
    ∀ j, bitAt s.bigEndian (buf.take s.size.toNat) j = s.elementBit bytes j

/-- The bytes that `op_index` takes. -/
def element (bytes : List UInt8) : Result (List UInt8) :=
  if s.stride = 0 then .ok (bytes.drop ((s.index - s.lower) * s.size).toNat)
  else packedElement s.bigEndian bytes (BitVec.ofNat 64 s.length) s.size
    ((s.index - s.lower) * s.stride.setWidth 64) s.stride s.typeClass

/-! ## What the code makes of the bits -/

/-- The bit of the array that is read for a bit of the element; its number is of type `unsigned`. -/
def seen (bytes : List UInt8) (k : Nat) : Bool :=
  bitAt s.bigEndian bytes (Pieces.unsigned (k + s.position))

/-- From the bit `n` of the element on, the right bits are read. -/
def ReadsFrom (bytes : List UInt8) (n : Nat) : Prop :=
  ∀ k, n ≤ k → k < s.width → s.seen bytes k = bitAt s.bigEndian bytes (s.position + k)

/-- The right bits are read, and there is no sign to copy. -/
def Plain (bytes : List UInt8) : Prop :=
  s.ReadsFrom bytes 0 ∧
    (s.typeClass = .integer → s.width < 8 * s.size.toNat → s.sign bytes = false)

/-- The number of the bit that is taken for the sign of a big endian element. -/
def taken : Nat := Pieces.unsigned (s.length * 8 + 2 ^ 32 - s.width)

/-- That bit is in the element. Where it is set, all bits in front of it are set. -/
def ExactBig (bytes : List UInt8) : Prop :=
  s.taken < 8 * s.size.toNat ∧
    if s.start ≤ s.taken ∧ s.seen bytes (s.taken - s.start) = true then
      (∀ j < s.taken, s.elementBit bytes j = true) ∧ s.ReadsFrom bytes (s.taken - s.start)
    else s.Plain bytes

/-- A sign that is set is copied to the end of the array. -/
def ExactLittle (bytes : List UInt8) : Prop :=
  if s.seen bytes (s.width - 1) = true then
    s.ReadsFrom bytes 0 ∧ s.length = s.size.toNat ∧ 8 * s.length ≤ 2 ^ 32
  else s.Plain bytes

/-- An element that is as wide as the array is not extended. -/
def Exact (bytes : List UInt8) : Prop :=
  if s.typeClass = .integer ∧ s.width < 8 * s.length then
    if s.bigEndian then s.ExactBig bytes else s.ExactLittle bytes
  else s.Plain bytes

/-- The numbers of the bits of a big endian element are not of type `unsigned`. -/
def Wide : Prop := s.bigEndian = true ∧ 2 ^ 32 < 8 * s.size.toNat

/-- The index is in front of the array, or in it; and a packed element is exact. -/
def Supported (bytes : List UInt8) : Prop :=
  s.distance < 0 ∨ (s.InRange ∧ (s.stride ≠ 0 → ¬ s.Wide ∧ s.Exact bytes))

end Shape

section

variable {s : Shape} {bytes buf : List UInt8}

theorem distance_nonneg : 0 ≤ s.distance ↔ ¬ s.index.slt s.lower = true := by
  rw [BitVec.slt, decide_eq_true_eq, Shape.distance]
  omega

/-- The difference of the two numbers does not wrap as a number without sign. -/
theorem toNat_distance (h : 0 ≤ s.distance) : (s.index - s.lower).toNat = s.distance.toNat := by
  unfold Shape.distance at *
  have hIndex := s.index.isLt
  have hLower := s.lower.isLt
  rw [BitVec.toInt_eq_toNat_cond, BitVec.toInt_eq_toNat_cond] at *
  rw [BitVec.toNat_sub]
  split_ifs at h ⊢ <;> omega

theorem width_packed (h : s.stride ≠ 0) : s.width = s.stride.toNat := if_neg h

theorem width_le (s : Shape) : s.width ≤ 8 * s.size.toNat := by
  have hFits := s.fits
  unfold Shape.width
  split
  · exact Nat.le_refl _
  · exact hFits

theorem stride_pos (h : s.stride ≠ 0) : 0 < s.stride.toNat := by
  rcases Nat.eq_zero_or_pos s.stride.toNat with hZero | hPos
  · exact absurd (BitVec.eq_of_toNat_eq hZero) h
  · exact hPos

/-- The last bit of the element is in the array. -/
theorem position_le (h : s.InRange) : s.position + s.width ≤ 8 * s.length := by
  have hIn := h.2
  rw [Nat.succ_mul] at hIn
  exact hIn

/-! ## The bits that are gathered -/

theorem bitOffset_eq (hIn : s.InRange) (hPacked : s.stride ≠ 0) :
    ((s.index - s.lower) * s.stride.setWidth 64).toNat = s.position := by
  have hEnd := position_le hIn
  have hSmall := s.small
  have hStride : (s.stride.setWidth 64).toNat = s.stride.toNat := by
    rw [BitVec.toNat_setWidth]
    exact Nat.mod_eq_of_lt (s.stride.isLt.trans (by decide))
  rw [BitVec.toNat_mul, toNat_distance hIn.1, hStride]
  unfold Shape.position at *
  rw [width_packed hPacked] at hEnd ⊢
  exact Nat.mod_eq_of_lt (by omega)

theorem bufferOffset_eq (hPacked : s.stride ≠ 0)
    (hBuffer : s.bigEndian = true → 8 * s.size.toNat ≤ 2 ^ 32) :
    bufferOffset s.bigEndian s.size s.stride = s.start := by
  have hLe := s.fits
  unfold bufferOffset Shape.start
  rw [width_packed hPacked]
  cases hBig : s.bigEndian with
  | false => rfl
  | true =>
    have hSmall := hBuffer hBig
    have hPos := stride_pos hPacked
    have hStride : (s.stride.setWidth 64).toNat = s.stride.toNat := by
      rw [BitVec.toNat_setWidth]
      exact Nat.mod_eq_of_lt (s.stride.isLt.trans (by decide))
    have hSize : (s.size * 8).toNat = 8 * s.size.toNat := by
      rw [BitVec.toNat_mul]
      show s.size.toNat * 8 % 2 ^ 64 = _
      omega
    rw [if_pos rfl, if_pos rfl, BitVec.toNat_sub, hStride, hSize, Pieces.unsigned]
    omega

/-- The bits that are read, and zeros. -/
structure Gathered (s : Shape) (bytes buf : List UInt8) : Prop where
  length  : buf.length = s.size.toNat
  inside  : ∀ {j}, s.start ≤ j → j < s.start + s.width →
    bitAt s.bigEndian buf j = s.seen bytes (j - s.start)
  outside : ∀ {j}, ¬ (s.start ≤ j ∧ j < s.start + s.width) → bitAt s.bigEndian buf j = false

theorem start_width (s : Shape) :
    s.start + s.width ≤ 8 * s.size.toNat ∧
      (s.bigEndian = true → s.start + s.width = 8 * s.size.toNat) ∧
        (s.bigEndian = false → s.start = 0) := by
  have hLe := width_le s
  unfold Shape.start
  cases s.bigEndian with
  | true =>
    rw [if_pos rfl]
    exact ⟨by omega, fun _ => by omega, fun h => absurd h (by simp)⟩
  | false => exact ⟨by simpa using hLe, fun h => absurd h (by simp), fun _ => rfl⟩

/-- The loop puts the bits that it reads where they belong. -/
theorem gathered (hIn : s.InRange) (hPacked : s.stride ≠ 0) (hNarrow : ¬ s.Wide)
    (hLength : bytes.length = s.length) :
    ∃ buf, gatherBits s.bigEndian bytes ((s.index - s.lower) * s.stride.setWidth 64).toNat
        (bufferOffset s.bigEndian s.size s.stride) s.stride.toNat 0
          (List.replicate s.size.toNat 0) = .ok buf ∧ Gathered s bytes buf := by
  have hBuffer : s.bigEndian = true → 8 * s.size.toNat ≤ 2 ^ 32 :=
    fun hBig => Nat.le_of_not_lt fun hLess => hNarrow ⟨hBig, hLess⟩
  have hEnd := position_le hIn
  obtain ⟨hStart, -, hFirst⟩ := start_width s
  have hStride := s.stride.isLt
  have hWidth := width_packed hPacked
  have hSmall : s.start + s.width ≤ 2 ^ 32 := by
    cases hBig : s.bigEndian with
    | true => exact hStart.trans (hBuffer hBig)
    | false =>
      rw [hFirst hBig, hWidth]
      omega
  rw [bitOffset_eq hIn hPacked, bufferOffset_eq hPacked hBuffer, ← hWidth]
  have hVal : ∀ k, 0 ≤ k → k < 0 + s.width →
      Pieces.unsigned (k + s.position) / 8 < bytes.length := by
    intro k _ hk
    have hLe : Pieces.unsigned (k + s.position) ≤ k + s.position := Nat.mod_le _ _
    omega
  have hBuf : ∀ k, 0 ≤ k → k < 0 + s.width →
      Pieces.unsigned (k + s.start) / 8 < (List.replicate s.size.toNat (0 : UInt8)).length := by
    intro k _ hk
    rw [unsigned_of_lt (by omega), List.length_replicate]
    omega
  obtain ⟨buf, hRun⟩ := @gatherBits_total s.bigEndian _ _ _ _ _ _ hVal hBuf
  obtain ⟨hLengthBuf, hPut⟩ := gatherBits_ok hRun
  have hNoBit : ∀ j, bitAt s.bigEndian (List.replicate s.size.toNat 0) j ≠ true := by
    intro j
    rw [bitAt_replicate]
    exact Bool.false_ne_true
  refine ⟨buf, hRun, hLengthBuf.trans List.length_replicate, fun {j} hLe hLt => ?_,
    fun {j} hOut => ?_⟩
  · rw [Bool.eq_iff_iff, hPut]
    constructor
    · rintro (hOld | ⟨k, -, hk, hPlace, hSet⟩)
      · exact absurd hOld (hNoBit j)
      · rw [unsigned_of_lt (by omega)] at hPlace
        have hIndex : j - s.start = k := by omega
        rw [hIndex]
        exact hSet
    · intro hSet
      refine .inr ⟨j - s.start, Nat.zero_le _, by omega, ?_, hSet⟩
      rw [unsigned_of_lt (by omega)]
      omega
  · rw [Bool.eq_false_iff, ne_eq, hPut]
    rintro (hOld | ⟨k, -, hk, hPlace, -⟩)
    · exact hNoBit j hOld
    · rw [unsigned_of_lt (by omega)] at hPlace
      exact hOut (by omega)

theorem bitAt_take {big : Bool} {j n : Nat} (h : j / 8 < n) :
    bitAt big (buf.take n) j = bitAt big buf j := by
  unfold bitAt
  rw [List.getD_eq_getElem?_getD, List.getD_eq_getElem?_getD, List.getElem?_take_of_lt h]

/-! ## Exact elements -/

theorem isElement_iff (hLength : buf.length = s.size.toNat) :
    s.IsElement bytes buf ↔ ∀ j, bitAt s.bigEndian buf j = s.elementBit bytes j := by
  have hTake : buf.take s.size.toNat = buf := List.take_of_length_le (Nat.le_of_eq hLength)
  unfold Shape.IsElement
  rw [hTake]
  exact and_iff_right hLength

theorem elementBit_inside {k : Nat} (hk : k < s.width) :
    s.elementBit bytes (s.start + k) = bitAt s.bigEndian bytes (s.position + k) := by
  rw [Shape.elementBit, if_pos (by omega), Nat.add_sub_cancel_left]

theorem elementBit_outside {j : Nat} (h : ¬ (s.start ≤ j ∧ j < s.start + s.width)) :
    s.elementBit bytes j =
      (decide (s.typeClass = .integer ∧ j < 8 * s.size.toNat) && s.sign bytes) :=
  if_neg h

theorem Gathered.bit (h : Gathered s bytes buf) {k : Nat} (hk : k < s.width) :
    bitAt s.bigEndian buf (s.start + k) = s.seen bytes k := by
  rw [h.inside (by omega) (by omega), Nat.add_sub_cancel_left]

/-- The bits without a sign. -/
theorem isElement_plain (h : Gathered s bytes buf) : s.IsElement bytes buf ↔ s.Plain bytes := by
  rw [isElement_iff h.length]
  constructor
  · intro hAll
    refine ⟨fun k _ hk => ?_, fun hInt hLess => ?_⟩
    · rw [← h.bit hk, hAll, elementBit_inside hk]
    · obtain ⟨j, hj, hOut⟩ : ∃ j < 8 * s.size.toNat, ¬ (s.start ≤ j ∧ j < s.start + s.width) := by
        by_cases hStart : s.start = 0
        · exact ⟨s.width, hLess, by omega⟩
        · exact ⟨0, by omega, by omega⟩
      have hBit := hAll j
      rw [h.outside hOut, elementBit_outside hOut, decide_eq_true ⟨hInt, hj⟩] at hBit
      exact hBit.symm
  · rintro ⟨hReads, hSign⟩ j
    by_cases hRange : s.start ≤ j ∧ j < s.start + s.width
    · obtain ⟨k, rfl⟩ := Nat.exists_eq_add_of_le hRange.1
      have hk : k < s.width := by omega
      rw [h.bit hk, elementBit_inside hk, hReads k (Nat.zero_le k) hk]
    · rw [h.outside hRange, elementBit_outside hRange]
      by_cases hInt : s.typeClass = .integer ∧ j < 8 * s.size.toNat
      · rw [hSign hInt.1 (by have hLast := (start_width s).1; omega), Bool.and_false]
      · rw [decide_eq_false hInt, Bool.false_and]

theorem arrayBits (s : Shape) : (BitVec.ofNat 64 s.length * 8).toNat = 8 * s.length := by
  have hSmall := s.small
  rw [BitVec.toNat_mul, BitVec.toNat_ofNat]
  show s.length % 2 ^ 64 * 8 % 2 ^ 64 = _
  omega

variable {buf' : List UInt8}

/-- The bits with a sign in front of them. -/
theorem isElement_below (h : Gathered s bytes buf) (hBig : s.bigEndian = true)
    (hTaken : s.start ≤ s.taken)
    (hLength : buf'.length = buf.length)
    (hBits : ∀ j, bitAt true buf' j = true ↔ j < s.taken ∨ bitAt true buf j = true) :
    s.IsElement bytes buf' ↔ (∀ j < s.taken, s.elementBit bytes j = true) ∧
      s.ReadsFrom bytes (s.taken - s.start) := by
  have hFull := (start_width s).2.1 hBig
  have hBehind : ∀ {j}, s.taken ≤ j → bitAt true buf' j = bitAt true buf j := fun {j} hLe =>
    Bool.eq_iff_iff.2 ((hBits j).trans (or_iff_right (Nat.not_lt.2 hLe)))
  have hPlain : ∀ {k}, k < s.width → bitAt true buf (s.start + k) = s.seen bytes k := by
    rw [← hBig]
    exact h.bit
  rw [isElement_iff (hLength.trans h.length), hBig]
  constructor
  · intro hAll
    refine ⟨fun j hj => (hAll j).symm.trans ((hBits j).2 (.inl hj)), fun k hLe hk => ?_⟩
    rw [← hPlain hk, ← hBehind (by omega), hAll, elementBit_inside hk]
  · rintro ⟨hOnes, hReads⟩ j
    by_cases hj : j < s.taken
    · rw [hOnes j hj, (hBits j).2 (.inl hj)]
    · rw [hBehind (Nat.le_of_not_lt hj)]
      by_cases hRange : j < s.start + s.width
      · obtain ⟨k, rfl⟩ := Nat.exists_eq_add_of_le (hTaken.trans (Nat.le_of_not_lt hj))
        have hk : k < s.width := by omega
        rw [hPlain hk, elementBit_inside hk, hReads k (by omega) hk, hBig]
      · have hOut : ¬ (s.start ≤ j ∧ j < s.start + s.width) := fun hIn => hRange hIn.2
        have hZero := h.outside hOut
        rw [hBig] at hZero
        rw [hZero, elementBit_outside hOut, decide_eq_false (by omega), Bool.false_and]

/-- The bit that is taken for the sign is in the buffer, or it is not. -/
theorem bitSignExtend_eq {big : Bool} {size : Word} {bitCnt offs : Nat}
    (hMore : 0 < bitCnt ∧ bitCnt < (size * 8).toNat) (hOffset : signOffset big size bitCnt = offs) :
    bitSignExtend big size bitCnt buf = if offs / 8 < buf.length then
      (if bitAt big buf offs = true then copySign big size offs buf else .ok buf)
    else .error .fault := by
  subst hOffset
  rw [bitSignExtend, if_pos hMore]
  by_cases hHere : signOffset big size bitCnt / 8 < buf.length
  · rw [inBuffer_ok hHere, if_pos hHere]
    rfl
  · rw [inBuffer_fault hHere, if_neg hHere]
    rfl

/-- The sign of a big endian element is looked for at its place in the array. -/
theorem bitSignExtend_big (h : Gathered s bytes buf) (hPos : 0 < s.width)
    (hMore : s.width < 8 * s.length) (hBig : s.bigEndian = true) :
    (∃ buf', bitSignExtend true (BitVec.ofNat 64 s.length) s.width buf = .ok buf' ∧
      s.IsElement bytes buf') ↔ s.ExactBig bytes := by
  have hSmall := s.small
  have hFull := (start_width s).2.1 hBig
  have hOffset : signOffset true (BitVec.ofNat 64 s.length) s.width = s.taken := by
    rw [signOffset, if_pos rfl, BitVec.toNat_ofNat, Nat.mod_eq_of_lt (by omega), Shape.taken]
  have hSize := h.length
  rw [bitSignExtend_eq ⟨hPos, by rwa [arrayBits]⟩ hOffset]
  by_cases hHere : s.taken / 8 < buf.length
  · have hLt : s.taken < 8 * s.size.toNat := by omega
    rw [if_pos hHere]
    refine Iff.trans ?_ (and_iff_right hLt).symm
    have hFound : bitAt true buf s.taken = true ↔
        s.start ≤ s.taken ∧ s.seen bytes (s.taken - s.start) = true := by
      by_cases hLe : s.start ≤ s.taken
      · have hBit := h.inside hLe (by omega)
        rw [hBig] at hBit
        rw [hBit, and_iff_right hLe]
      · have hZero := h.outside fun hIn => hLe hIn.1
        rw [hBig] at hZero
        rw [hZero]
        exact iff_of_false Bool.false_ne_true fun hIn => hLe hIn.1
    by_cases hSet : s.start ≤ s.taken ∧ s.seen bytes (s.taken - s.start) = true
    · have hRoom : s.taken ≤ 8 * buf.length := by omega
      obtain ⟨buf', hRun, hLength, hBits⟩ := setBelow_ok hRoom
      rw [if_pos (hFound.2 hSet), if_pos hSet, copySign, if_pos rfl, hRun]
      simp only [Except.ok.injEq, exists_eq_left']
      exact isElement_below h hBig hSet.1 hLength hBits
    · rw [if_neg fun hBit => hSet (hFound.1 hBit), if_neg hSet, ← isElement_plain h]
      simp only [Except.ok.injEq, exists_eq_left']
  · rw [if_neg hHere]
    refine iff_of_false ?_ fun hExact => hHere (by have hLt := hExact.1; omega)
    rintro ⟨buf', hRun, -⟩
    cases hRun

/-- The bits with a sign behind them, up to the end of the array. -/
theorem isElement_above (h : Gathered s bytes buf) (hInt : s.typeClass = .integer)
    (hMore : s.width < 8 * s.length) (hPos : 0 < s.width) (hLittle : s.bigEndian = false)
    (hSet : s.seen bytes (s.width - 1) = true) (hFits : s.length ≤ s.size.toNat)
    (hLength : buf'.length = buf.length)
    (hBits : ∀ j, bitAt false buf' j = true ↔
      (s.width - 1 < j ∧ j ≤ 8 * s.length - 1) ∨ bitAt false buf j = true) :
    s.IsElement bytes buf' ↔ s.ReadsFrom bytes 0 ∧ s.length = s.size.toNat := by
  have hStart := (start_width s).2.2 hLittle
  have hLast : s.signBit = s.width - 1 := by
    unfold Shape.signBit
    rw [hLittle]
    rfl
  -- the sign that is copied is the last bit of those that are read
  have hSign : s.ReadsFrom bytes 0 → s.sign bytes = true := fun hReads => by
    rw [Shape.sign, hLast, ← hReads _ (Nat.zero_le _) (by omega), hSet]
  have hInside : ∀ {k}, k < s.width → bitAt false buf' k = s.seen bytes k := by
    intro k hk
    have hBit := h.bit hk
    rw [hStart, hLittle, Nat.zero_add] at hBit
    rw [← hBit]
    exact Bool.eq_iff_iff.2 ((hBits k).trans (or_iff_right (by omega)))
  have hElement : ∀ {k}, k < s.width →
      s.elementBit bytes k = bitAt s.bigEndian bytes (s.position + k) := by
    intro k hk
    have hBit : s.elementBit bytes (s.start + k) = _ := elementBit_inside hk
    rwa [hStart, Nat.zero_add] at hBit
  -- above the bits that are read there is nothing but the copied sign
  have hOutside : ∀ {k}, ¬ k < s.width → (bitAt false buf' k = true ↔ k ≤ 8 * s.length - 1) ∧
      s.elementBit bytes k = (decide (k < 8 * s.size.toNat) && s.sign bytes) := by
    intro k hk
    have hOut : ¬ (s.start ≤ k ∧ k < s.start + s.width) := by omega
    have hZero := h.outside hOut
    rw [hLittle] at hZero
    refine ⟨?_, ?_⟩
    · rw [hBits, hZero, or_iff_left Bool.false_ne_true]
      exact and_iff_right (by omega)
    · rw [elementBit_outside hOut, hInt]
      simp only [true_and]
  rw [isElement_iff (hLength.trans h.length), hLittle]
  constructor
  · intro hAll
    have hReads : s.ReadsFrom bytes 0 := fun k _ hk => by
      rw [← hInside hk, hAll, hElement hk]
    refine ⟨hReads, ?_⟩
    by_contra hOther
    obtain ⟨hBit, hRight⟩ := hOutside (k := 8 * s.length) (by omega)
    rw [hSign hReads, Bool.and_true, decide_eq_true (by omega), ← hAll] at hRight
    have hLe := hBit.1 hRight
    omega
  · rintro ⟨hReads, hSame⟩ j
    by_cases hj : j < s.width
    · rw [hInside hj, hElement hj, hReads j (Nat.zero_le j) hj]
    · obtain ⟨hBit, hRight⟩ := hOutside hj
      rw [Bool.eq_iff_iff, hBit, hRight, hSign hReads, Bool.and_true, decide_eq_true_eq]
      omega

/-- The sign of a little endian element is copied to the end of the array. -/
theorem bitSignExtend_little (h : Gathered s bytes buf) (hInt : s.typeClass = .integer)
    (hPos : 0 < s.width) (hMore : s.width < 8 * s.length) (hLittle : s.bigEndian = false) :
    (∃ buf', bitSignExtend false (BitVec.ofNat 64 s.length) s.width buf = .ok buf' ∧
      s.IsElement bytes buf') ↔ s.ExactLittle bytes := by
  have hSmall := s.small
  have hSize := h.length
  obtain ⟨hEnd, -, hFirst⟩ := start_width s
  have hStart := hFirst hLittle
  have hOffset : signOffset false (BitVec.ofNat 64 s.length) s.width = s.width - 1 := rfl
  have hHere : (s.width - 1) / 8 < buf.length := by omega
  have hLimit : (BitVec.ofNat 64 s.length * 8 - 1).toNat = 8 * s.length - 1 := by
    rw [BitVec.toNat_sub, arrayBits]
    show (2 ^ 64 - 1 + 8 * s.length) % 2 ^ 64 = _
    omega
  have hFound : bitAt false buf (s.width - 1) = s.seen bytes (s.width - 1) := by
    have hBit := h.bit (by omega : s.width - 1 < s.width)
    rwa [hStart, hLittle, Nat.zero_add] at hBit
  have hEach : s.width - 1 + (8 * s.length - 1 - (s.width - 1)) = 8 * s.length - 1 := by omega
  rw [bitSignExtend_eq ⟨hPos, by rwa [arrayBits]⟩ hOffset, if_pos hHere, hFound, Shape.ExactLittle]
  by_cases hSet : s.seen bytes (s.width - 1) = true
  · rw [if_pos hSet, if_pos hSet, copySign, if_neg Bool.false_ne_true, hLimit]
    by_cases hWraps : 2 ^ 32 ≤ 8 * s.length - 1
    · rw [if_pos hWraps]
      refine iff_of_false ?_ fun hExact => by have hLe := hExact.2.2; omega
      rintro ⟨buf', hRun, -⟩
      cases hRun
    · rw [if_neg hWraps]
      by_cases hFits : s.length ≤ s.size.toNat
      · have hRoom : s.width - 1 + (8 * s.length - 1 - (s.width - 1)) < 8 * buf.length := by omega
        obtain ⟨buf', hRun, hLength, hBits⟩ := setAbove_ok hRoom
        rw [hEach] at hBits
        rw [hRun]
        simp only [Except.ok.injEq, exists_eq_left']
        rw [isElement_above h hInt hMore hPos hLittle hSet hFits hLength hBits]
        exact and_congr_right fun _ => (and_iff_left (by omega)).symm
      · rw [setAbove_fault (by omega) (by omega)]
        refine iff_of_false ?_ fun hExact => hFits (Nat.le_of_eq hExact.2.1)
        rintro ⟨buf', hRun, -⟩
        cases hRun
  · rw [if_neg hSet, if_neg hSet, ← isElement_plain h]
    simp only [Except.ok.injEq, exists_eq_left']

/-- Which packed elements are what the array has. -/
theorem element_packed (hIn : s.InRange) (hPacked : s.stride ≠ 0) (hNarrow : ¬ s.Wide)
    (hLength : bytes.length = s.length) :
    (∃ buf, s.element bytes = .ok buf ∧ s.IsElement bytes buf) ↔ s.Exact bytes := by
  have hWidth := width_packed hPacked
  have hPos : 0 < s.width := hWidth ▸ stride_pos hPacked
  obtain ⟨plain, hRun, hPlain⟩ := gathered hIn hPacked hNarrow hLength
  have hAlone : (∃ buf, (Except.ok plain : Result (List UInt8)) = .ok buf ∧
      s.IsElement bytes buf) ↔ s.Plain bytes := by
    rw [← isElement_plain hPlain]
    simp only [Except.ok.injEq, exists_eq_left']
  rw [Shape.element, if_neg hPacked, packedElement, hRun, Shape.Exact]
  show (∃ buf, (if s.typeClass = .integer then _ else _) = _ ∧ _) ↔ _
  by_cases hInt : s.typeClass = .integer
  · rw [if_pos hInt, ← hWidth]
    by_cases hMore : s.width < 8 * s.length
    · rw [if_pos ⟨hInt, hMore⟩]
      cases hBig : s.bigEndian with
      | true => exact bitSignExtend_big hPlain hPos hMore hBig
      | false => exact bitSignExtend_little hPlain hInt hPos hMore hBig
    · rw [if_neg fun hSome => hMore hSome.2, bitSignExtend, arrayBits,
        if_neg fun hSome => hMore hSome.2]
      exact hAlone
  · rw [if_neg hInt, if_neg fun hSome => hInt hSome.1]
    exact hAlone

end

/-! ## Arrays -/

/-- The value is an array of this shape with this contents, which is not in the memory of the target
or has packed elements, and the symbols service knows its type. -/
structure HasShape (env : Env Sym Frame) (v : Value Sym Frame) (s : Shape) (bytes : List UInt8) :
    Prop where
  array  : v.typeClass = .array
  place  : v.remote = false ∨ s.stride ≠ 0
  stride : v.bitStride = s.stride
  order  : v.bigEndian = s.bigEndian
  length : bytes.length = s.length
  types  : ∃ arrayType type stride, v.type = some arrayType ∧
    env.getBaseType arrayType = .ok (some type) ∧ env.getTypeClass type = .ok s.typeClass ∧
      elementSize env type s.typeClass = .ok s.size ∧
        env.getLowerBound arrayType = .ok s.lower ∧ env.bitStride type s.typeClass = .ok stride
  loaded : ∃ v₁ v₂, symbolSize env v = .ok v₁ ∧ loadValue env v₁ = .ok v₂ ∧
    v₂.value = some bytes ∧ v₂.size = BitVec.ofNat 64 s.length

/-- The value is the element at the index; without one there is an error. -/
structure Meets (s : Shape) (bytes : List UInt8) (r : Result (Value Sym Frame)) : Prop where
  inside  : s.InRange → ∃ v buf, r = .ok v ∧ v.value = some buf ∧ v.size = s.size ∧
    v.typeClass = s.typeClass ∧ s.IsElement bytes buf
  outside : ¬ s.InRange → ∃ f, r = .error (.raise f)

section

variable {env : Env Sym Frame} {v v' : Value Sym Frame} {s : Shape} {bytes buf : List UInt8}

theorem symbolSize_keeps (h : symbolSize env v = .ok v') :
    v'.bigEndian = v.bigEndian ∧ v'.bitStride = v.bitStride := by
  unfold symbolSize at h
  split at h
  · cases h
    exact ⟨rfl, rfl⟩
  · split at h
    · obtain ⟨size, -, hRest⟩ := Fallible.bind_eq_ok h
      cases hRest
      exact ⟨rfl, rfl⟩
    · cases h
      exact ⟨rfl, rfl⟩

theorem loadValue_keeps (h : loadValue env v = .ok v') :
    v'.bigEndian = v.bigEndian ∧ v'.bitStride = v.bitStride := by
  unfold loadValue at h
  split at h
  · split at h
    · cases h
    · split at h
      · cases h
      · obtain ⟨read, -, hRest⟩ := Fallible.bind_eq_ok h
        cases hRest
        exact ⟨rfl, rfl⟩
  · split at h
    · cases h
      exact ⟨rfl, rfl⟩
    · obtain ⟨read, -, hRest⟩ := Fallible.bind_eq_ok h
      obtain ⟨extended, -, hEnd⟩ := Fallible.bind_eq_ok hRest
      cases hEnd
      exact ⟨rfl, rfl⟩
    · cases h

/-- What is taken from the array. -/
theorem elementAt_eq (h : HasShape env v s bytes) :
    ∃ w : Value Sym Frame, elementAt env v s.typeClass s.size (s.index - s.lower) =
      (s.element bytes).map fun buf => { w with value := some buf } := by
  obtain ⟨v₁, v₂, hSize, hLoad, hValue, hLength⟩ := h.loaded
  obtain ⟨hBig₁, hStride₁⟩ := symbolSize_keeps hSize
  obtain ⟨hBig₂, hStride₂⟩ := loadValue_keeps hLoad
  have hLocal : ¬ (v.remote = true ∧ v.bitStride = 0) := by
    rintro ⟨hRemote, hZero⟩
    rcases h.place with hNot | hPacked
    · rw [hNot] at hRemote
      cases hRemote
    · exact hPacked (h.stride.symm.trans hZero)
  refine ⟨v₂, ?_⟩
  rw [elementAt, if_neg hLocal, hSize]
  show (loadValue env v₁).bind _ = _
  rw [hLoad]
  show (match v₂.value with | none => _ | some bytes => _) = _
  rw [hValue]
  simp only [hStride₂, hStride₁, h.stride, hBig₂, hBig₁, h.order, hLength]
  unfold Shape.element
  by_cases hPacked : s.stride = 0
  · rw [if_pos hPacked, if_pos hPacked]
    rfl
  · rw [if_neg hPacked, if_neg hPacked]
    cases packedElement s.bigEndian bytes (BitVec.ofNat 64 s.length) s.size
      ((s.index - s.lower) * s.stride.setWidth 64) s.stride s.typeClass <;> rfl

theorem opIndex_eq (h : HasShape env v s bytes) :
    ∃ w : Value Sym Frame, w.size = s.size ∧ w.typeClass = s.typeClass ∧
      opIndex env .normal v (.ok s.index) =
        if s.index.slt s.lower = true then invalid "Invalid index"
        else (s.element bytes).map fun buf => { w with value := some buf } := by
  obtain ⟨arrayType, type, stride, hType, hBase, hClass, hSize, hLower, hProps⟩ := h.types
  obtain ⟨w, hElement⟩ := elementAt_eq h
  have hTypes : elementType env v = .ok (arrayType, type, s.typeClass) := by
    rw [elementType, if_neg fun hNot => hNot.1 h.array, hType]
    show (orError _ (env.getBaseType arrayType)).bind _ = _
    rw [hBase]
    show (orError _ (env.getTypeClass type)).bind _ = _
    rw [hClass]
    rfl
  have hIndexed : indexed env v type = .ok v := by
    rw [indexed, if_neg (by rw [h.array]; exact fun hSame => by cases hSame)]
  have hDistance : distanceTo env v arrayType s.index =
      if s.index.slt s.lower = true then invalid "Invalid index" else .ok (s.index - s.lower) := by
    rw [distanceTo, if_pos h.array, hLower]
    rfl
  refine ⟨{ w with
    sym := none, loc := none, size := s.size, type := some type, typeClass := s.typeClass,
    bitStride := stride }, rfl, rfl, ?_⟩
  rw [opIndex, if_neg (by decide), hTypes]
  show (indexed env v type).bind _ = _
  rw [hIndexed]
  show (elementSize env type s.typeClass).bind _ = _
  rw [hSize]
  show (selectElement env .normal v arrayType s.typeClass s.size (.ok s.index)).bind _ = _
  have hSelect : selectElement env .normal v arrayType s.typeClass s.size (.ok s.index) =
      (distanceTo env v arrayType s.index).bind fun distance =>
        elementAt env v s.typeClass s.size distance := rfl
  rw [hSelect, hDistance]
  by_cases hBefore : s.index.slt s.lower = true
  · rw [if_pos hBefore, if_pos hBefore]
    rfl
  · rw [if_neg hBefore, if_neg hBefore]
    show (elementAt env v s.typeClass s.size (s.index - s.lower)).bind _ = _
    rw [hElement]
    cases s.element bytes with
    | error e => rfl
    | ok buf =>
      show (env.bitStride type s.typeClass).bind _ = _
      rw [hProps]
      rfl

/-! ## Which arrays are supported -/

theorem element_silent {f : Failure} : s.element bytes ≠ .error (.raise f) := by
  unfold Shape.element
  split
  · exact fun h => by cases h
  · exact packedElement_silent

/-- Elements of whole bytes are where they should be. -/
theorem element_bytes (hIn : s.InRange) (hBytes : s.stride = 0)
    (hLength : bytes.length = s.length) :
    ∃ buf, s.element bytes = .ok buf ∧ s.IsElement bytes buf := by
  have hWidth : s.width = 8 * s.size.toNat := if_pos hBytes
  have hEnd := position_le hIn
  have hSmall := s.small
  have hOffset : ((s.index - s.lower) * s.size).toNat * 8 = s.position := by
    unfold Shape.position at *
    rw [hWidth] at hEnd ⊢
    have hProduct : s.distance.toNat * (8 * s.size.toNat) =
        s.distance.toNat * s.size.toNat * 8 := by ring
    rw [hProduct] at hEnd ⊢
    rw [BitVec.toNat_mul, toNat_distance hIn.1, Nat.mod_eq_of_lt (by omega)]
  have hStart : s.start = 0 := by
    unfold Shape.start
    rw [hWidth]
    split <;> omega
  refine ⟨_, if_pos hBytes, ?_, fun j => ?_⟩
  · rw [List.length_take, List.length_drop]
    omega
  · rw [Shape.elementBit, hStart, Nat.zero_add, Nat.sub_zero]
    by_cases hj : j < s.width
    · rw [if_pos ⟨Nat.zero_le j, hj⟩, bitAt_take (by omega)]
      have hByte : (s.position + j) / 8 =
          ((s.index - s.lower) * s.size).toNat + j / 8 := by omega
      have hNumber : bitNumber s.bigEndian (s.position + j) = bitNumber s.bigEndian j := by
        have hMod : (s.position + j) % 8 = j % 8 := by omega
        rw [bitNumber, bitNumber, hMod]
      rw [bitAt, bitAt, hByte, hNumber, List.getD_eq_getElem?_getD, List.getD_eq_getElem?_getD,
        List.getElem?_drop]
    · rw [if_neg fun hRange => hj hRange.2, decide_eq_false (by omega), Bool.false_and]
      refine bitAt_of_ge ?_
      rw [List.length_take]
      omega

/-- Where the array has the element, it is the value of what is taken. -/
theorem meets_iff (hIn : s.InRange) (hShape : HasShape env v s bytes) :
    Meets s bytes (opIndex env .normal v (.ok s.index)) ↔
      ∃ buf, s.element bytes = .ok buf ∧ s.IsElement bytes buf := by
  obtain ⟨w, hSize, hClass, hRun⟩ := opIndex_eq hShape
  rw [hRun, if_neg (distance_nonneg.1 hIn.1)]
  constructor
  · intro hMeets
    obtain ⟨v, buf, hOk, hValue, -, -, hIs⟩ := hMeets.inside hIn
    obtain ⟨buf', hElement, rfl⟩ := Fallible.map_eq_ok hOk
    obtain rfl : buf' = buf := Option.some.inj hValue
    exact ⟨buf', hElement, hIs⟩
  · rintro ⟨buf, hElement, hIs⟩
    rw [hElement]
    exact ⟨fun _ => ⟨_, buf, rfl, rfl, hSize, hClass, hIs⟩, fun hOut => absurd hIn hOut⟩

theorem supported_meets (h : s.Supported bytes) (hShape : HasShape env v s bytes) :
    Meets s bytes (opIndex env .normal v (.ok s.index)) := by
  rcases h with hBefore | ⟨hIn, hExact⟩
  · obtain ⟨w, -, -, hRun⟩ := opIndex_eq hShape
    have hSlt : s.index.slt s.lower = true := by
      by_contra hNot
      have hLe := distance_nonneg.2 hNot
      omega
    rw [hRun, if_pos hSlt]
    refine ⟨fun hIn => ?_, fun _ => ⟨_, rfl⟩⟩
    have hLe := hIn.1
    omega
  · refine (meets_iff hIn hShape).2 ?_
    by_cases hPacked : s.stride = 0
    · exact element_bytes hIn hPacked hShape.length
    · obtain ⟨hNarrow, hBits⟩ := hExact hPacked
      exact (element_packed hIn hPacked hNarrow hShape.length).2 hBits

theorem meets_supported (h : Meets s bytes (opIndex env .normal v (.ok s.index)))
    (hShape : HasShape env v s bytes) : s.Supported bytes ∨ s.Wide := by
  by_cases hBefore : s.distance < 0
  · exact .inl (.inl hBefore)
  · have hSlt : ¬ s.index.slt s.lower = true := distance_nonneg.1 (by omega)
    have hIn : s.InRange := by
      by_contra hOut
      obtain ⟨w, -, -, hRun⟩ := opIndex_eq hShape
      obtain ⟨f, hRaise⟩ := h.outside hOut
      rw [hRun, if_neg hSlt] at hRaise
      rcases hElement : s.element bytes with e | buf
      · rw [hElement] at hRaise
        cases hRaise
        exact element_silent hElement
      · rw [hElement] at hRaise
        cases hRaise
    by_cases hWide : s.Wide
    · exact .inr hWide
    · refine .inl (.inr ⟨hIn, fun hPacked => ⟨hWide, ?_⟩⟩)
      exact (element_packed hIn hPacked hWide hShape.length).1 ((meets_iff hIn hShape).1 h)

end

/-- A symbols service and a local array of this shape. -/
def shapeEnv (s : Shape) (a : Sym) : Env Sym Frame where
  refuse _ _ := none
  target := RegisterFields.filled fun _ => 0
  stopped := true
  readMem _ size := .ok (Vector.replicate size 0)
  getBaseType _ := .ok (some a)
  getTypeClass _ := .ok s.typeClass
  getSize _ := .ok s.size
  getLowerBound _ := .ok s.lower
  toUns _ := .ok 0
  endianness _ := .ok s.bigEndian
  bitStride _ _ := .ok 0

def shapeValue (s : Shape) (a : Sym) (bytes : List UInt8) : Value Sym Frame where
  sym := none
  type := some a
  typeClass := .array
  value := some bytes
  loc := none
  address := 0
  size := BitVec.ofNat 64 s.length
  remote := false
  constant := false
  bigEndian := s.bigEndian
  bitStride := s.stride

theorem hasShape_shapeValue (s : Shape) (a : Sym) {bytes : List UInt8}
    (h : bytes.length = s.length) :
    HasShape (shapeEnv s a : Env Sym Frame) (shapeValue s a bytes) s bytes := by
  refine ⟨rfl, .inl rfl, rfl, rfl, h, ⟨a, a, 0, rfl, rfl, rfl, ?_, rfl, rfl⟩,
    ⟨_, _, rfl, rfl, rfl, rfl⟩⟩
  by_cases hFunction : s.typeClass = .function
  · rw [elementSize, if_pos hFunction, s.function hFunction]
  · rw [elementSize, if_neg hFunction]
    rfl

/-- The element at an index is what the array has there, and there is an error where the array has
none, for the contents that are supported, and only for them unless the element is too wide. -/
theorem opIndex_iff (a : Sym) (s : Shape) (contents : Vector UInt8 s.length) :
    (s.Supported contents.toList → ∀ (env : Env Sym Frame) (v : Value Sym Frame),
      HasShape env v s contents.toList →
        Meets s contents.toList (opIndex env .normal v (.ok s.index))) ∧
    ((∀ (env : Env Sym Frame) (v : Value Sym Frame), HasShape env v s contents.toList →
        Meets s contents.toList (opIndex env .normal v (.ok s.index))) →
      s.Supported contents.toList ∨ s.Wide) := by
  refine ⟨fun h env v hShape => supported_meets h hShape, fun h => ?_⟩
  have hShape : HasShape (shapeEnv s a : Env Sym Frame) (shapeValue s a contents.toList) s
      contents.toList := hasShape_shapeValue s a contents.length_toList
  exact meets_supported (h _ _ hShape) hShape

/-- Four numbers with a sign of four bits each. -/
def nibbles : Shape where
  length := 2
  size := 1
  stride := 4
  typeClass := .integer
  bigEndian := false
  lower := 0
  index := 0
  small := by decide
  fits := by decide
  function := by decide

/-- The sign of the first one is copied over the end of the buffer. -/
theorem not_opIndex :
    HasShape (shapeEnv nibbles () : Env Unit Unit) (shapeValue nibbles () [8, 0]) nibbles [8, 0] ∧
      nibbles.InRange ∧
        opIndex (shapeEnv nibbles () : Env Unit Unit) .normal (shapeValue nibbles () [8, 0])
          (.ok nibbles.index) = .error .fault :=
  ⟨hasShape_shapeValue nibbles () rfl, by unfold Shape.InRange; decide, rfl⟩

end TcfAgent.ArrayIndex
