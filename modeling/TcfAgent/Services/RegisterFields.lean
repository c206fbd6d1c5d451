import TcfAgent.Services.Expressions
import TcfAgent.Services.PieceRoundTrip

/-!
# Registers that are bit fields

`reg2value` of `services/expressions.c` reads a register for an expression. A bit field is a list of
bits of its parent, which can be a bit field, too. The value is gathered from the bytes of the
register at the end of the chain, and location pieces of one bit each are attached to it.

Main results:

* `gatherField_spec` — which bits the value has;
* `readPieces_field` — which bits are read from the pieces;
* `readersAgree_iff` — for which bit fields they are the same.
-/

namespace TcfAgent.RegisterFields

open TcfAgent.Lib TcfAgent.Location TcfAgent.Pieces
open TcfAgent.VmEval (RegisterDefinition LocationPiece inOrder)
open TcfAgent.Expressions (Mode)

/-! ## Registers -/

/-- An `int` that is not negative. -/
abbrev BitNo := Fin (2 ^ 31)

/-- A definition without its parent. `bits` are the numbers in front of the -1. -/
structure RegisterInfo where
  core          : RegisterDefinition
  fpValue       : Bool
  leftToRight   : Bool
  memoryContext : Bool
  bits          : Option (List BitNo)

/-- A definition; one that is on top has no parent. -/
inductive Register where
  | top (info : RegisterInfo)
  | child (info : RegisterInfo) (parent : Register)

def Register.info : Register → RegisterInfo
  | .top info => info
  | .child info _ => info

def STACK_NO_FRAME : Int := -1

def STACK_TOP_FRAME : Int := -2

/-- ERR_ALREADY_EXITED -/
def alreadyExited : Nat := 0x2000b

/-- ERR_IS_RUNNING -/
def isRunning : Nat := 0x2000e

/-- A context with its registers, which are those of a stack frame where there is one. -/
structure Context (Frame : Type) where
  exited       : Bool
  hasState     : Bool
  stopped      : Bool
  readRunning  : Bool
  getFrameInfo : Int → Except Nat Frame
  refuse       : Option Frame → Refusals
  target       : Option Frame → Target

inductive TypeClass where
  | real | cardinal
deriving DecidableEq, Repr

/-- What `reg2value` leaves in its `Value`. Bytes that were not read are unknown. -/
structure RegValue (Frame : Type) where
  typeClass  : TypeClass
  size       : Nat
  bigEndian  : Bool
  value      : Option (List UInt8)
  pieces     : List LocationPiece
  stackFrame : Option Frame

/-! ## The chain of parents -/

/-- `def->bits[bit]`. The -1 behind the bits is `none`; what is beyond it is not there. -/
def parentBit (bits : List BitNo) : Option BitNo → Result (Option BitNo)
  | none => .error .fault
  | some b => if b.val ≤ bits.length then .ok bits[b.val]? else .error .fault

def parentBits (pbits : List BitNo) : List (Option BitNo) → Result (List (Option BitNo))
  | [] => .ok []
  | b :: bits => do
    let b' ← parentBit pbits b
    let bits' ← parentBits pbits bits
    return b' :: bits'

/-- `for (;;) { def = def->parent; … }`: the register at the end, and the bits in it. -/
def resolve : Register → List (Option BitNo) → Result (RegisterInfo × List (Option BitNo))
  | .top _, _ => .error .fault
  | .child _ parent, bits =>
    match parent.info.bits with
    | none => .ok (parent.info, bits)
    | some pbits => do resolve parent (← parentBits pbits bits)

/-! ## The value -/

/-- `(bits[i] & ~7) | (7 - (bits[i] & 7))` where bits are numbered from the other end of a byte. -/
def bitOffset (def' : RegisterInfo) : Option BitNo → BitVec 32
  | none => if def'.core.bigEndian ≠ def'.leftToRight then -8 else -1
  | some b =>
    if def'.core.bigEndian ≠ def'.leftToRight then BitVec.ofNat 32 (b.val / 8 * 8 + (7 - b.val % 8))
    else BitVec.ofNat 32 b.val

def fieldPiece (def' : RegisterInfo) (bit : Option BitNo) : LocationPiece :=
  { LocationPiece.zero with reg := some def'.core, bitSize := 1, bitOffs := bitOffset def' bit }

variable {Frame : Type}

/-- The frame that the register is read from, or why it cannot be read. -/
def readableIn (ctx : Context Frame) (frame : Int) (def' : RegisterInfo) : Result (Option Frame) :=
  if ctx.exited then raised (exception alreadyExited)
  else if def'.memoryContext then .ok none
  else if ctx.hasState = false then
    if frame ≠ STACK_NO_FRAME then raised (strException Err.invContext "Invalid stack frame ID")
    else .ok none
  else if ctx.stopped = false ∧ ctx.readRunning = false then
    raised (strException isRunning "Cannot read CPU register")
  else if frame = STACK_TOP_FRAME ∨ frame = STACK_NO_FRAME then .ok none
  else
    match ctx.getFrameInfo frame with
    | .error errno => raised (exception errno)
    | .ok info => .ok (some info)

def assertion (p : Prop) [Decidable p] : Result Unit := if p then .ok () else .error .fault

/-- The loop over the pieces, with its assertions. -/
def gatherField (big : Bool) (def' : RegisterDefinition) (raw : List UInt8) :
    List LocationPiece → Nat → List UInt8 → Result (List UInt8)
  | [], _, value => .ok value
  | p :: pieces, i, value => do
    assertion (p.reg = some def' ∧ p.bitSize = 1 ∧ p.bitOffs.toNat / 8 < def'.size)
    if bitAt big raw p.bitOffs.toNat then
      inBuffer value i
      gatherField big def' raw pieces (i + 1) (putAt big value i true)
    else gatherField big def' raw pieces (i + 1) value

/-- `(v->loc->pieces_cnt + 7) / 8` -/
def fieldSize (pieces : List LocationPiece) : Nat := Pieces.unsigned (pieces.length + 7) / 8

/-- A bit field. The number of its bits is counted in an `unsigned`, which goes round before the end
of a list that is too long. -/
def fieldValue (mode : Mode) (ctx : Context Frame) (frame : Int) (def' : Register)
    (bits : List BitNo) : Result (RegValue Frame) := do
  assertion (bits.length < 2 ^ 32)
  let r ← resolve def' (bits.map some)
  let v : RegValue Frame := {
    typeClass := if def'.info.fpValue then .real else .cardinal
    size := r.1.core.size
    bigEndian := def'.info.core.bigEndian
    value := if r.1.core.size = 0 then some [] else none
    pieces := r.2.map (fieldPiece r.1)
    stackFrame := none }
  if 0 < r.1.core.size ∧ mode = .normal then do
    let info ← readableIn ctx frame r.1
    allowed (ctx.refuse info) (.readReg r.1.core)
    let value ← gatherField v.bigEndian r.1.core ((ctx.target info).reg r.1.core).toList v.pieces 0
      (List.replicate (fieldSize v.pieces) 0)
    return { v with size := fieldSize v.pieces, value := some value, stackFrame := info }
  else return v

/-- A register of its own. -/
def plainValue (mode : Mode) (ctx : Context Frame) (frame : Int) (def' : RegisterInfo) :
    Result (RegValue Frame) :=
  let v : RegValue Frame := {
    typeClass := if def'.fpValue then .real else .cardinal
    size := def'.core.size
    bigEndian := def'.core.bigEndian
    value := if def'.core.size = 0 then some [] else none
    pieces := [{ LocationPiece.zero with reg := some def'.core, size := def'.core.size }]
    stackFrame := none }
  if 0 < def'.core.size ∧ mode = .normal then do
    let info ← readableIn ctx frame def'
    allowed (ctx.refuse info) (.readReg def'.core)
    return { v with value := some ((ctx.target info).reg def'.core).toList, stackFrame := info }
  else return v

def reg2value (mode : Mode) (ctx : Context Frame) (frame : Int) (def' : Register) :
    Result (RegValue Frame) :=
  match def'.info.bits with
  | some bits =>
    if def'.info.core.size = 0 then fieldValue mode ctx frame def' bits
    else plainValue mode ctx frame def'.info
  | none => plainValue mode ctx frame def'.info

/-! ## The bits of the value -/

section

variable {big : Bool} {core : RegisterDefinition} {top : RegisterInfo} {raw value : List UInt8}
  {pieces : List LocationPiece} {bits bits₀ : List BitNo} {obits : List (Option BitNo)} {i : Nat}

theorem assertion_ok {p : Prop} [Decidable p] (h : p) : assertion p = .ok () := if_pos h

theorem assertion_fault {p : Prop} [Decidable p] (h : ¬ p) : assertion p = .error .fault := if_neg h

/-- A piece of one bit of the register. -/
def OneBit (core : RegisterDefinition) (p : LocationPiece) : Prop :=
  p.reg = some core ∧ p.bitSize = 1 ∧ p.bitOffs.toNat / 8 < core.size

theorem gatherField_spec (hPieces : ∀ p ∈ pieces, OneBit core p)
    (hRoom : i + pieces.length ≤ 8 * value.length)
    (hZero : ∀ j, i ≤ j → bitAt big value j = false) :
    ∃ value', gatherField big core raw pieces i value = .ok value' ∧
      value'.length = value.length ∧
      (∀ k p, pieces[k]? = some p → bitAt big value' (i + k) = bitAt big raw p.bitOffs.toNat) ∧
      ∀ j, j < i ∨ i + pieces.length ≤ j → bitAt big value' j = bitAt big value j := by
  induction pieces generalizing i value with
  | nil =>
    refine ⟨value, rfl, rfl, fun k p hk => ?_, fun _ _ => rfl⟩
    rw [List.getElem?_nil] at hk
    cases hk
  | cons p pieces ih =>
    rw [List.length_cons] at hRoom
    have hHere : i / 8 < value.length := by omega
    have hRest : ∀ q ∈ pieces, OneBit core q := fun q hq => hPieces q (List.mem_cons_of_mem p hq)
    -- the bit is put in either case
    obtain ⟨next, hNext, hLength, hPut⟩ : ∃ next : List UInt8,
        (do if bitAt big raw p.bitOffs.toNat then
              inBuffer value i
              gatherField big core raw pieces (i + 1) (putAt big value i true)
            else gatherField big core raw pieces (i + 1) value) =
          gatherField big core raw pieces (i + 1) next ∧ next.length = value.length ∧
        ∀ j, bitAt big next j =
          if j = i then bitAt big raw p.bitOffs.toNat else bitAt big value j := by
      cases hBit : bitAt big raw p.bitOffs.toNat with
      | true =>
        refine ⟨putAt big value i true, ?_, length_putAt, fun j => bitAt_putAt hHere⟩
        rw [if_pos rfl, inBuffer_ok hHere]
        rfl
      | false =>
        refine ⟨value, if_neg Bool.false_ne_true, rfl, fun j => ?_⟩
        by_cases hSame : j = i
        · rw [if_pos hSame, hSame, hZero i (Nat.le_refl i)]
        · rw [if_neg hSame]
    have hZero' : ∀ j, i + 1 ≤ j → bitAt big next j = false := by
      intro j hj
      rw [hPut, if_neg (by omega), hZero j (by omega)]
    obtain ⟨value', hRun, hLength', hBits, hOther⟩ := @ih next (i + 1) hRest (by omega) hZero'
    refine ⟨value', ?_, hLength'.trans hLength, fun k q hk => ?_, fun j hj => ?_⟩
    · have hPiece : p.reg = some core ∧ p.bitSize = 1 ∧ p.bitOffs.toNat / 8 < core.size :=
        hPieces p List.mem_cons_self
      rw [gatherField, assertion_ok hPiece]
      exact hNext.trans hRun
    · rcases k with - | k
      · cases hk
        rw [Nat.add_zero, hOther i (by omega), hPut, if_pos rfl]
      · rw [List.getElem?_cons_succ] at hk
        have hIndex : i + (k + 1) = i + 1 + k := by omega
        rw [hIndex, hBits k q hk]
    · rw [List.length_cons] at hj
      rw [hOther j (by omega), hPut, if_neg (by omega)]

theorem length_parentBits {obits' : List (Option BitNo)} (h : parentBits bits obits = .ok obits') :
    obits'.length = obits.length := by
  induction obits generalizing obits' with
  | nil =>
    cases h
    rfl
  | cons b obits ih =>
    obtain ⟨b', -, hRest⟩ := Fallible.bind_eq_ok h
    obtain ⟨rest, hTail, hEnd⟩ := Fallible.bind_eq_ok hRest
    cases hEnd
    rw [List.length_cons, List.length_cons, ih hTail]

/-- A bit field has as many bits as its definition says. -/
theorem length_resolve {def' : Register} {obits' : List (Option BitNo)}
    (h : resolve def' obits = .ok (top, obits')) : obits'.length = obits.length := by
  induction def' generalizing obits with
  | top info => cases h
  | child info parent ih =>
    rw [resolve] at h
    rcases hParent : parent.info.bits with - | pbits
    · rw [hParent] at h
      cases h
      rfl
    · rw [hParent] at h
      obtain ⟨next, hNext, hRest⟩ := Fallible.bind_eq_ok h
      exact (ih hRest).trans (length_parentBits hNext)

/-! ## The pieces -/

/-- The pieces of a bit field whose bits are all there. -/
def fieldPieces (top : RegisterInfo) (bits : List BitNo) : List LocationPiece :=
  (bits.map some).map (fieldPiece top)

theorem length_fieldPieces : (fieldPieces top bits).length = bits.length := by
  rw [fieldPieces, List.length_map, List.length_map]

/-- A bit keeps its byte. -/
theorem bitOffset_byte (b : BitNo) : (bitOffset top (some b)).toNat / 8 = b.val / 8 := by
  have hb := b.isLt
  unfold bitOffset
  simp only
  split
  · rw [BitVec.toNat_ofNat, Nat.mod_eq_of_lt (by omega)]
    omega
  · rw [BitVec.toNat_ofNat, Nat.mod_eq_of_lt (by omega)]

theorem bitOffset_lt (b : BitNo) : (bitOffset top (some b)).toNat < 2 ^ 31 := by
  have hb := b.isLt
  have hByte := @bitOffset_byte top b
  omega

theorem mem_fieldPieces {p : LocationPiece} (h : p ∈ fieldPieces top bits) :
    ∃ b ∈ bits, p = fieldPiece top (some b) := by
  obtain ⟨o, ho, rfl⟩ := List.mem_map.1 h
  obtain ⟨b, hb, rfl⟩ := List.mem_map.1 ho
  exact ⟨b, hb, rfl⟩

variable {b : BitNo}

theorem getElem?_fieldPieces {k : Nat} (h : bits[k]? = some b) :
    (fieldPieces top bits)[k]? = some (fieldPiece top (some b)) := by
  rw [fieldPieces, List.getElem?_map, List.getElem?_map, h]
  rfl

theorem oneBit_fieldPiece (h : b.val / 8 < top.core.size) :
    OneBit top.core (fieldPiece top (some b)) := ⟨rfl, rfl, (bitOffset_byte b).trans_lt h⟩

theorem wellFormed_fieldPiece (h : b.val / 8 < top.core.size) :
    WellFormed (fieldPiece top (some b)) := by
  refine ⟨rfl, rfl, fun hReg => absurd hReg (Option.some_ne_none _), fun hZero => ?_,
    fun _ hSize => absurd rfl hSize, fun r hReg => ?_⟩
  · exact absurd hZero (show (1 : BitVec 32) ≠ 0 by decide)
  · cases hReg
    have hByte := @bitOffset_byte top b
    show ((bitOffset top (some b)).toNat + 1 + 7) / 8 ≤ _
    omega

theorem fits_fieldPiece (b : BitNo) : Fits (fieldPiece top (some b)) := by
  intro _
  have hLt := @bitOffset_lt top b
  refine ⟨?_, fun hReg => absurd hReg (Option.some_ne_none _)⟩
  show (bitOffset top (some b)).toNat + 1 < 2 ^ 32
  omega

theorem bitCount_fieldPiece (b : Option BitNo) : bitCount (fieldPiece top b) = 1 := rfl

theorem total_fieldPieces : total (fieldPieces top bits) = bits.length := by
  induction bits with
  | nil => rfl
  | cons b bits ih =>
    have hCons : fieldPieces top (b :: bits) = fieldPiece top (some b) :: fieldPieces top bits :=
      rfl
    rw [hCons, total_cons, ih, bitCount_fieldPiece, List.length_cons, Nat.add_comm]

theorem getElem?_places_fieldPieces {k : Nat} (h : bits[k]? = some b) :
    (places big (fieldPieces top bits))[k]? =
      some (place big (fieldPiece top (some b)) (bitOffset top (some b)).toNat) := by
  induction bits generalizing k with
  | nil => cases h
  | cons b' bits ih =>
    have hCons : fieldPieces top (b' :: bits) = fieldPiece top (some b') :: fieldPieces top bits :=
      rfl
    rw [hCons, places_cons]
    rcases k with - | k
    · cases h
      rfl
    · have hOne : (piecePlaces big (fieldPiece top (some b'))).length = 1 := length_piecePlaces
      rw [List.getElem?_append_right (by omega), hOne]
      exact ih h

/-- Where the first bit of the field stands in what is read from the pieces. -/
def fieldStart (big : Bool) (n : Nat) : Nat := if big then (n + 7) / 8 * 8 - n else 0

/-- What is read from the pieces. -/
theorem readPieces_field {refuse : Refusals} {s : Target}
    (hInside : ∀ b ∈ bits, b.val / 8 < top.core.size)
    (hAllowed : refuse (.readReg top.core) = none) (hCount : bits.length + 7 < 2 ^ 32) :
    ∃ bytes, readLocationPieces refuse big (fieldPieces top bits) s = .ok bytes ∧
      bytes.length = (bits.length + 7) / 8 ∧
      (∀ k b, bits[k]? = some b → bitAt big bytes (fieldStart big bits.length + k) =
        s.bit (place big (fieldPiece top (some b)) (bitOffset top (some b)).toNat)) ∧
      ∀ j, j < fieldStart big bits.length ∨ fieldStart big bits.length + bits.length ≤ j →
        bitAt big bytes j = false := by
  have hTotal : total (fieldPieces top bits) = bits.length := total_fieldPieces
  have hStart : start big (fieldPieces top bits) = fieldStart big bits.length := by
    rw [start, totalSize, hTotal, fieldStart]
  have hLe := start_le big (fieldPieces top bits)
  have hSize : totalSize (fieldPieces top bits) = (bits.length + 7) / 8 := by rw [totalSize, hTotal]
  rw [hStart, hTotal, hSize] at hLe
  have hAll : ∀ p ∈ fieldPieces top bits, WellFormed p ∧ Fits p ∧ refuse (loading p) = none := by
    intro p hp
    obtain ⟨b, hb, rfl⟩ := mem_fieldPieces hp
    exact ⟨wellFormed_fieldPiece (hInside b hb), fits_fieldPiece b, hAllowed⟩
  have hRoom : fieldStart big bits.length + total (fieldPieces top bits) ≤
      8 * (List.replicate ((bits.length + 7) / 8) (0 : UInt8)).length := by
    rw [hTotal, List.length_replicate]
    exact hLe
  obtain ⟨bytes, hRun, hLength, hBits, hOther⟩ := @readPieces_spec refuse big
    (fieldPieces top bits) s (List.replicate ((bits.length + 7) / 8) 0)
    (fieldStart big bits.length) (fun p hp => (hAll p hp).1) (fun p hp => (hAll p hp).2.1)
    (fun p hp => (hAll p hp).2.2) hRoom (by omega) fun _ _ => bitAt_replicate _
  refine ⟨bytes, ?_, hLength.trans List.length_replicate, fun k b hk => ?_, fun j hj => ?_⟩
  · rw [readLocationPieces_eq (by omega), hStart, hSize, hRun]
  · exact hBits k _ (getElem?_places_fieldPieces hk)
  · rw [hOther j (by omega), bitAt_replicate]

end

/-! ## The two readers -/

/-- Whatever the registers hold, the value is what is read from its pieces. -/
def ReadersAgree (ctx : Context Frame) (frame : Int) (def' : Register) : Prop :=
  ∀ target : Option Frame → Target, ∃ v value,
    reg2value .normal { ctx with target := target } frame def' = .ok v ∧ v.value = some value ∧
      readLocationPieces (ctx.refuse v.stackFrame) v.bigEndian v.pieces (target v.stackFrame) =
        .ok value

/-- The bits can be counted, they fill their bytes where the first bit of a byte is the highest one,
and the byte of each bit is the same in both byte orders. -/
structure Even (def' top : RegisterInfo) (bits : List BitNo) : Prop where
  count : bits.length + 7 < 2 ^ 32
  whole : def'.core.bigEndian = true → 8 ∣ bits.length
  order : def'.core.bigEndian = top.core.bigEndian ∨ ∀ b ∈ bits, 2 * (b.val / 8) + 1 = top.core.size

section

variable {ctx : Context Frame} {frame : Int} {def' : Register} {top : RegisterInfo}
  {bits₀ bits : List BitNo} {info : Option Frame}

theorem reg2value_field (hField : def'.info.core.size = 0) (hBits : def'.info.bits = some bits₀)
    (mode : Mode) : reg2value mode ctx frame def' = fieldValue mode ctx frame def' bits₀ := by
  unfold reg2value
  rw [hBits]
  exact if_pos hField

/-- The value of a bit field that can be read. -/
theorem reg2value_eq (hField : def'.info.core.size = 0) (hBits : def'.info.bits = some bits₀)
    (hResolve : resolve def' (bits₀.map some) = .ok (top, bits.map some))
    (hReadable : readableIn ctx frame top = .ok info)
    (hAllowed : ctx.refuse info (.readReg top.core) = none) (hSize : 0 < top.core.size)
    (hCount : bits.length < 2 ^ 32) :
    reg2value .normal ctx frame def' =
      (gatherField def'.info.core.bigEndian top.core ((ctx.target info).reg top.core).toList
        (fieldPieces top bits) 0 (List.replicate (Pieces.unsigned (bits.length + 7) / 8) 0)).map
        fun value => {
          typeClass := if def'.info.fpValue then .real else .cardinal
          size := Pieces.unsigned (bits.length + 7) / 8
          bigEndian := def'.info.core.bigEndian
          value := some value
          pieces := fieldPieces top bits
          stackFrame := info } := by
  have hLength : bits₀.length = bits.length := by
    have hSame := length_resolve hResolve
    rw [List.length_map, List.length_map] at hSame
    exact hSame.symm
  have hFieldSize : fieldSize (List.map (fieldPiece top) (bits.map some)) =
      Pieces.unsigned (bits.length + 7) / 8 := by
    rw [fieldSize, List.length_map, List.length_map]
  rw [reg2value_field hField hBits, fieldValue, assertion_ok (by omega), hResolve]
  show (if 0 < top.core.size ∧ Mode.normal = .normal then _ else _) = _
  rw [if_pos ⟨hSize, rfl⟩, hReadable]
  show (allowed (ctx.refuse info) (.readReg top.core)).bind _ = _
  rw [allowed_none hAllowed]
  simp only [hFieldSize, fieldPieces]
  show Except.bind (gatherField _ _ _ _ _ _) _ = _
  cases gatherField def'.info.core.bigEndian top.core ((ctx.target info).reg top.core).toList
    (List.map (fieldPiece top) (bits.map some)) 0 _ <;> rfl

/-- The place of a bit is the bit with its number in the bytes as they are. -/
theorem bit_place_same {big : Bool} (s : Target) (b : BitNo)
    (h : big = top.core.bigEndian ∨ 2 * (b.val / 8) + 1 = top.core.size) :
    s.bit (place big (fieldPiece top (some b)) (bitOffset top (some b)).toNat) =
      bitAt big (s.reg top.core).toList (bitOffset top (some b)).toNat := by
  have hByte := @bitOffset_byte top b
  show s.bit (.reg top.core (if top.core.bigEndian = big then _ else _) _) = _
  have hIndex : (if top.core.bigEndian = big then (bitOffset top (some b)).toNat / 8
      else top.core.size - 1 - (bitOffset top (some b)).toNat / 8) =
        (bitOffset top (some b)).toNat / 8 := by
    rcases h with rfl | hMiddle
    · rw [if_pos rfl]
    · split <;> omega
  rw [hIndex]
  rfl

theorem readersAgree_of_even (hField : def'.info.core.size = 0)
    (hBits : def'.info.bits = some bits₀)
    (hResolve : resolve def' (bits₀.map some) = .ok (top, bits.map some))
    (hInside : ∀ b ∈ bits, b.val / 8 < top.core.size)
    (hReadable : readableIn ctx frame top = .ok info)
    (hAllowed : ctx.refuse info (.readReg top.core) = none)
    (h : Even def'.info top bits) : ReadersAgree ctx frame def' := by
  intro target
  rcases Nat.eq_zero_or_pos top.core.size with hZero | hSize
  · -- a register without bytes has no bits
    have hNil : bits = [] := by
      rcases bits with - | ⟨b, bits⟩
      · rfl
      · have hNone := hInside b List.mem_cons_self
        omega
    subst hNil
    have hNone : bits₀ = [] := by
      have hLength := length_resolve hResolve
      simpa using hLength.symm
    subst hNone
    have hRun : reg2value .normal { ctx with target := target } frame def' = .ok {
        typeClass := if def'.info.fpValue then .real else .cardinal
        size := top.core.size
        bigEndian := def'.info.core.bigEndian
        value := if top.core.size = 0 then some [] else none
        pieces := []
        stackFrame := none } := by
      rw [reg2value_field hField hBits, fieldValue, assertion_ok (by decide), hResolve]
      show (if 0 < top.core.size ∧ Mode.normal = .normal then _ else _) = _
      rw [if_neg fun hSome => by omega]
      rfl
    have hEmpty : total [] + 7 < 2 ^ 32 := by decide
    exact ⟨_, [], hRun, if_pos hZero, readLocationPieces_eq hEmpty⟩
  · have hUnsigned : Pieces.unsigned (bits.length + 7) = bits.length + 7 := unsigned_of_lt h.count
    have hPieces : ∀ p ∈ fieldPieces top bits, OneBit top.core p := by
      intro p hp
      obtain ⟨b, hb, rfl⟩ := mem_fieldPieces hp
      exact oneBit_fieldPiece (hInside b hb)
    have hRoom : 0 + (fieldPieces top bits).length ≤
        8 * (List.replicate ((bits.length + 7) / 8) (0 : UInt8)).length := by
      rw [length_fieldPieces, List.length_replicate]
      omega
    obtain ⟨value, hGather, hLength, hValue, hRest⟩ := @gatherField_spec def'.info.core.bigEndian
      top.core ((target info).reg top.core).toList _ _ 0 hPieces hRoom fun _ _ => bitAt_replicate _
    obtain ⟨bytes, hRead, hLength', hBytes, hRest'⟩ := @readPieces_field def'.info.core.bigEndian
      top bits (ctx.refuse info) (target info) hInside hAllowed h.count
    have hStart : fieldStart def'.info.core.bigEndian bits.length = 0 := by
      have hWhole := h.whole
      unfold fieldStart
      split
      · have hDvd := hWhole ‹_›
        omega
      · rfl
    rw [hStart] at hBytes hRest'
    -- bit for bit, both readers have taken the same bit of the register
    have hSame : value = bytes := by
      refine @bytes_ext def'.info.core.bigEndian _ _
        (hLength.trans (List.length_replicate.trans hLength'.symm)) fun j => ?_
      by_cases hj : j < bits.length
      · have hb : bits[j]? = some bits[j] := List.getElem?_eq_getElem hj
        have hFirst := hValue j _ (getElem?_fieldPieces hb)
        have hSecond := hBytes j _ hb
        rw [Nat.zero_add] at hFirst hSecond
        have hOrder : def'.info.core.bigEndian = top.core.bigEndian ∨
            2 * (bits[j].val / 8) + 1 = top.core.size :=
          h.order.imp_right fun hAll => hAll _ (List.getElem_mem hj)
        rw [hFirst, hSecond, bit_place_same _ _ hOrder]
        rfl
      · rw [hRest j (by rw [length_fieldPieces]; omega), bitAt_replicate, hRest' j (by omega)]
    have hCount : bits.length < 2 ^ 32 := by
      have hAll := h.count
      omega
    have hRun := @reg2value_eq _ { ctx with target := target } frame def' top bits₀ bits info
      hField hBits hResolve hReadable hAllowed hSize hCount
    rw [hUnsigned] at hRun
    refine ⟨_, value, hRun.trans (congrArg (Except.map _) hGather), rfl, ?_⟩
    rw [hSame]
    exact hRead

theorem ones_bit {n : Nat} (h : n < 8) : (0xFF : UInt8).toBitVec.getLsbD n = true := by
  have hAll : ∀ n < 8, (0xFF : UInt8).toBitVec.getLsbD n = true := by decide
  exact hAll n h

/-- A target whose registers have these bytes. -/
def filled (byte : Nat → UInt8) : Option Frame → Target := fun _ =>
  ⟨fun _ => 0, fun _ => Vector.ofFn fun k => byte k⟩

theorem filled_bit (byte : Nat → UInt8) {k : Nat} (hk : k < top.core.size) (n : Nat) :
    (filled byte info).bit (.reg top.core k n) = (byte k).toBitVec.getLsbD n := by
  rw [Target.bit_reg]
  congr 2
  rw [List.getD_eq_getElem?_getD, filled, Vector.getElem?_toList, Vector.getElem?_ofFn, dif_pos hk]
  rfl

theorem filled_bitAt {big : Bool} (byte : Nat → UInt8) {j : Nat} (hj : j / 8 < top.core.size) :
    bitAt big ((filled byte info).reg top.core).toList j =
      (byte (j / 8)).toBitVec.getLsbD (bitNumber big j) := filled_bit byte hj _

/-- A value and what is read from its pieces, where both are there. -/
theorem ReadersAgree.at (h : ReadersAgree ctx frame def') (hField : def'.info.core.size = 0)
    (hBits : def'.info.bits = some bits₀)
    (hResolve : resolve def' (bits₀.map some) = .ok (top, bits.map some))
    (hReadable : readableIn ctx frame top = .ok info)
    (hAllowed : ctx.refuse info (.readReg top.core) = none) (hSize : 0 < top.core.size)
    (hCount : bits.length < 2 ^ 32) (target : Option Frame → Target) :
    ∃ value, gatherField def'.info.core.bigEndian top.core ((target info).reg top.core).toList
        (fieldPieces top bits) 0 (List.replicate (Pieces.unsigned (bits.length + 7) / 8) 0) =
          .ok value ∧
      readLocationPieces (ctx.refuse info) def'.info.core.bigEndian (fieldPieces top bits)
        (target info) = .ok value := by
  obtain ⟨v, value, hRun, hValue, hRead⟩ := h target
  have hRun' := @reg2value_eq _ { ctx with target := target } frame def' top bits₀ bits info
    hField hBits hResolve hReadable hAllowed hSize hCount
  rw [hRun] at hRun'
  obtain ⟨value', hGather, rfl⟩ := Fallible.map_eq_ok hRun'.symm
  have hSame : value' = value := Option.some.inj hValue
  rw [hSame] at hGather
  exact ⟨value, hGather, hRead⟩

-- a bit field of `top` that can be read
variable (hField : def'.info.core.size = 0)
    (hBits : def'.info.bits = some bits₀)
    (hResolve : resolve def' (bits₀.map some) = .ok (top, bits.map some))
    (hInside : ∀ b ∈ bits, b.val / 8 < top.core.size)
    (hReadable : readableIn ctx frame top = .ok info)
    (hAllowed : ctx.refuse info (.readReg top.core) = none)

include hField hBits hResolve hInside hReadable hAllowed

/-- More bits than can be counted. -/
theorem ReadersAgree.count (h : ReadersAgree ctx frame def') : bits.length + 7 < 2 ^ 32 := by
  by_contra hMany
  rcases bits with - | ⟨b, bits⟩
  · exact hMany (by decide)
  · have hHere := hInside b List.mem_cons_self
    by_cases hCount : (b :: bits).length < 2 ^ 32
    · -- the size of the value wraps to 0
      obtain ⟨value, hGather, -⟩ := h.at hField hBits hResolve hReadable hAllowed (by omega) hCount
        (filled fun _ => 0xFF)
      have hNone : Pieces.unsigned ((b :: bits).length + 7) / 8 = 0 := by
        unfold Pieces.unsigned
        omega
      have hByte := @bitOffset_byte top b
      have hBit : bitAt def'.info.core.bigEndian ((filled (fun _ => 0xFF) info).reg top.core).toList
          (fieldPiece top (some b)).bitOffs.toNat = true := by
        show bitAt _ _ (bitOffset top (some b)).toNat = true
        rw [filled_bitAt _ (by omega)]
        exact ones_bit (bitNumber_lt _ _)
      have hPiece : (fieldPiece top (some b)).reg = some top.core ∧
          (fieldPiece top (some b)).bitSize = 1 ∧
            (fieldPiece top (some b)).bitOffs.toNat / 8 < top.core.size := oneBit_fieldPiece hHere
      have hCons : fieldPieces top (b :: bits) = fieldPiece top (some b) :: fieldPieces top bits :=
        rfl
      rw [hNone, hCons, gatherField, assertion_ok hPiece] at hGather
      simp only [hBit, if_true] at hGather
      cases hGather
    · obtain ⟨v, value, hRun, -⟩ := h (filled fun _ => 0)
      have hLength : bits₀.length = (b :: bits).length := by
        have hSame := length_resolve hResolve
        rw [List.length_map, List.length_map] at hSame
        exact hSame.symm
      rw [reg2value_field hField hBits, fieldValue, assertion_fault (by omega)] at hRun
      cases hRun

/-- The bits of the value and of what is read, where they can be counted. -/
theorem ReadersAgree.bit_eqs (h : ReadersAgree ctx frame def') (hCount : bits.length + 7 < 2 ^ 32)
    (target : Option Frame → Target) {k : Nat} {b : BitNo} (hb : bits[k]? = some b) :
    ∃ value : List UInt8,
      bitAt def'.info.core.bigEndian value k = bitAt def'.info.core.bigEndian
        ((target info).reg top.core).toList (bitOffset top (some b)).toNat ∧
      bitAt def'.info.core.bigEndian value
          (fieldStart def'.info.core.bigEndian bits.length + k) =
        (target info).bit (place def'.info.core.bigEndian (fieldPiece top (some b))
          (bitOffset top (some b)).toNat) ∧
      ∀ j, j < fieldStart def'.info.core.bigEndian bits.length →
        bitAt def'.info.core.bigEndian value j = false := by
  have hSize : 0 < top.core.size := (Nat.zero_le _).trans_lt (hInside b (List.mem_of_getElem? hb))
  obtain ⟨value, hGather, hRead⟩ := h.at hField hBits hResolve hReadable hAllowed hSize (by omega)
    target
  have hPieces : ∀ p ∈ fieldPieces top bits, OneBit top.core p := by
    intro p hp
    obtain ⟨b', hb', rfl⟩ := mem_fieldPieces hp
    exact oneBit_fieldPiece (hInside b' hb')
  have hRoom : 0 + (fieldPieces top bits).length ≤
      8 * (List.replicate ((bits.length + 7) / 8) (0 : UInt8)).length := by
    rw [length_fieldPieces, List.length_replicate]
    omega
  obtain ⟨value', hGather', -, hValue, -⟩ := @gatherField_spec def'.info.core.bigEndian top.core
    ((target info).reg top.core).toList _ _ 0 hPieces hRoom fun _ _ => bitAt_replicate _
  obtain ⟨bytes, hRead', -, hBytes, hRest⟩ := @readPieces_field def'.info.core.bigEndian
    top bits (ctx.refuse info) (target info) hInside hAllowed hCount
  rw [unsigned_of_lt hCount] at hGather
  obtain rfl := Except.ok.inj (hGather.symm.trans hGather')
  obtain rfl := Except.ok.inj (hRead.symm.trans hRead')
  have hFirst := hValue k _ (getElem?_fieldPieces hb)
  rw [Nat.zero_add] at hFirst
  exact ⟨value, hFirst, hBytes k b hb, fun j hj => hRest j (.inl hj)⟩

theorem ReadersAgree.even (h : ReadersAgree ctx frame def') : Even def'.info top bits := by
  have hCount := h.count hField hBits hResolve hInside hReadable hAllowed
  have hWhole : def'.info.core.bigEndian = true → 8 ∣ bits.length := by
    intro hBig
    by_contra hPart
    rcases hList : bits with - | ⟨b, rest⟩
    · rw [hList] at hPart
      exact hPart (by simp)
    · -- the first bit is set in the value, and is padding in what is read
      have hb : bits[0]? = some b := by rw [hList, List.getElem?_cons_zero]
      have hStart : 0 < fieldStart def'.info.core.bigEndian bits.length := by
        unfold fieldStart
        rw [if_pos hBig]
        omega
      obtain ⟨value, hSet, -, hPadding⟩ :=
        h.bit_eqs hField hBits hResolve hInside hReadable hAllowed
        hCount (filled fun _ => 0xFF) hb
      have hByte := @bitOffset_byte top b
      have hHere := hInside b (List.mem_of_getElem? hb)
      rw [hPadding 0 hStart, filled_bitAt _ (by omega), ones_bit (bitNumber_lt _ _)] at hSet
      cases hSet
  refine ⟨hCount, hWhole, ?_⟩
  by_contra hOrder
  rw [not_or] at hOrder
  obtain ⟨hSwapped, hMiddle⟩ := hOrder
  obtain ⟨b, hb, hOther⟩ : ∃ b ∈ bits, ¬ 2 * (b.val / 8) + 1 = top.core.size := by
    by_contra hAll
    exact hMiddle fun b hb => Classical.not_not.1 fun hNot => hAll ⟨b, hb, hNot⟩
  obtain ⟨k, hk⟩ := List.getElem?_of_mem hb
  have hStart : fieldStart def'.info.core.bigEndian bits.length = 0 := by
    unfold fieldStart
    split
    · have hDvd := hWhole ‹_›
      omega
    · rfl
  -- only the byte of this bit is set
  obtain ⟨value, hSet, hRead, -⟩ :=
    h.bit_eqs hField hBits hResolve hInside hReadable hAllowed hCount
    (filled fun j => if j = b.val / 8 then 0xFF else 0) hk
  have hByte := @bitOffset_byte top b
  have hHere := hInside b hb
  have hPlace : (filled (fun j => if j = b.val / 8 then (0xFF : UInt8) else 0) info).bit
      (place def'.info.core.bigEndian (fieldPiece top (some b)) (bitOffset top (some b)).toNat) =
        false := by
    show (filled (fun j => if j = b.val / 8 then (0xFF : UInt8) else 0) info).bit
      (.reg top.core (if top.core.bigEndian = def'.info.core.bigEndian then _ else _) _) = false
    rw [if_neg fun hSame => hSwapped hSame.symm, filled_bit _ (by omega), if_neg (by omega)]
    exact BitVec.getLsbD_zero
  rw [hStart, Nat.zero_add, hPlace] at hRead
  rw [hRead, filled_bitAt _ (by omega), if_pos hByte, ones_bit (bitNumber_lt _ _)] at hSet
  cases hSet

end

/-- The value of a bit field is what is read from its pieces exactly if the field is even. -/
theorem readersAgree_iff (ctx : Context Frame) (frame : Int) (def' : Register) (top : RegisterInfo)
    (bits₀ bits : List BitNo) (info : Option Frame) (hField : def'.info.core.size = 0)
    (hBits : def'.info.bits = some bits₀)
    (hResolve : resolve def' (bits₀.map some) = .ok (top, bits.map some))
    (hInside : ∀ b ∈ bits, b.val / 8 < top.core.size)
    (hReadable : readableIn ctx frame top = .ok info)
    (hAllowed : ctx.refuse info (.readReg top.core) = none) :
    ReadersAgree ctx frame def' ↔ Even def'.info top bits := by
  constructor
  · intro h
    exact h.even hField hBits hResolve hInside hReadable hAllowed
  · intro h
    exact readersAgree_of_even hField hBits hResolve hInside hReadable hAllowed h

/-! ## A register of two bytes -/

def wide (big : Bool) : RegisterInfo := ⟨⟨0, 2, big⟩, false, false, false, none⟩

/-- Two bits of a field of the register. -/
def nestedField : Register :=
  .child ⟨⟨1, 0, false⟩, false, false, false, some [1, 2]⟩
    (.child ⟨⟨2, 0, false⟩, false, false, false, some [8, 9, 10]⟩ (.top (wide false)))

/-- One bit of the register. -/
def flagField : Register := .child ⟨⟨3, 0, true⟩, false, false, false, some [8]⟩ (.top (wide true))

/-- A context that is stopped, with 0x0001 in each register. -/
def stoppedContext : Context Unit where
  exited := false
  hasState := true
  stopped := true
  readRunning := false
  getFrameInfo _ := .error Err.invContext
  refuse _ _ := none
  target := filled fun k => if k = 1 then 1 else 0

theorem readersAgree_nestedField : ReadersAgree stoppedContext STACK_TOP_FRAME nestedField ↔
    Even nestedField.info (wide false) [9, 10] :=
  readersAgree_iff stoppedContext STACK_TOP_FRAME nestedField (wide false) [1, 2] [9, 10] none rfl
    rfl rfl (by simp [wide]) rfl rfl

/-- The flag is the first bit of its value, and the last bit of what is read. -/
theorem not_readersAgree :
    (reg2value .normal stoppedContext STACK_TOP_FRAME flagField).toOption.bind RegValue.value =
        some [0x80] ∧
      (reg2value .normal stoppedContext STACK_TOP_FRAME flagField).toOption.bind (fun v =>
        (readLocationPieces (stoppedContext.refuse v.stackFrame) v.bigEndian v.pieces
          (stoppedContext.target v.stackFrame)).toOption) = some [0x01] :=
  ⟨by decide, by decide⟩

end TcfAgent.RegisterFields
