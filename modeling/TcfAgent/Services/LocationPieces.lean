import TcfAgent.Lib.BitBuffer
import TcfAgent.Services.VmEvaluator

/-!
# Reading and writing location pieces

`read_location_pieces` and `write_location_pieces` of `framework/cpudefs.c` on registers and memory
that can be written. Numbers of type `unsigned` wrap, bits are moved one by one, and an access
outside of a buffer is a fault.

Main results:

* `bitAt_buffer`     — the bits of the buffer of a piece are bits of the target;
* `stored_bit`, `stored_other` — a buffer that is written back changes these bits, and no others.
-/

namespace TcfAgent.Pieces

open TcfAgent.Lib TcfAgent.Location
open TcfAgent.VmEval (RegisterDefinition LocationPiece inOrder)

/-! ## The target -/

/-- Registers and memory of a context and its stack frame. -/
structure Target where
  mem : Word → UInt8
  reg : (r : RegisterDefinition) → Vector UInt8 r.size

/-- An access to the target. -/
inductive Access where
  | readReg (r : RegisterDefinition)
  | writeReg (r : RegisterDefinition)
  | readMem (addr : Word) (size : Nat)
  | writeMem (addr : Word) (size : Nat)

/-- The accesses that are refused, and why. -/
abbrev Refusals := Access → Option Nat

abbrev Result (α : Type) := Except (Stop Failure) α

def raised {α : Type} (f : Failure) : Result α := .error (.raise f)

def allowed (refuse : Refusals) (a : Access) : Result Unit :=
  match refuse a with
  | none => .ok ()
  | some errno => raised (exception errno)

/-- A value of type `unsigned`. -/
def unsigned (n : Nat) : Nat := n % 2 ^ 32

/-- `size` bytes from the address on. -/
def Target.readMem (s : Target) (addr : Word) (size : Nat) : List UInt8 :=
  (List.range size).map fun k => s.mem (addr + BitVec.ofNat 64 k)

def Target.writeMem (s : Target) (addr : Word) (bytes : List UInt8) : Target :=
  { s with mem := fun a => bytes.getD (a - addr).toNat (s.mem a) }

def Target.writeReg (s : Target) (r : RegisterDefinition) (bytes : Vector UInt8 r.size) : Target :=
  { s with reg := Function.update s.reg r bytes }

/-! ## One piece -/

/-- `piece->bit_size ? piece->bit_size : piece->size * 8`, before it is made `unsigned`. -/
def bitCount (p : LocationPiece) : Nat := if p.bitSize ≠ 0 then p.bitSize.toNat else p.size * 8

/-- `unsigned piece_bits` -/
def pieceBits (p : LocationPiece) : Nat := unsigned (bitCount p)

/-- `unsigned piece_size` -/
def pieceSize (p : LocationPiece) : Nat :=
  if p.size ≠ 0 then unsigned p.size
  else unsigned (p.bitOffs.toNat + p.bitSize.toNat + 7) / 8

/-- How often `for (i = piece->bit_offs; i < piece->bit_offs + piece_bits; i++)` is run. -/
def turns (p : LocationPiece) : Nat :=
  unsigned (p.bitOffs.toNat + pieceBits p) - p.bitOffs.toNat

/-- `pbf`, with the bytes of a register in the order that is asked for. A register that is too
small is filled up with zeros. -/
def loadPiece (refuse : Refusals) (big : Bool) (p : LocationPiece) (s : Target) :
    Result (List UInt8) :=
  match p.reg with
  | some r => do
    allowed refuse (.readReg r)
    let bytes := inOrder r.bigEndian big (s.reg r).toList
    let zeros := List.replicate (pieceSize p - r.size) 0
    return if big then zeros ++ bytes else bytes ++ zeros
  | none => do
    allowed refuse (.readMem p.addr (pieceSize p))
    return s.readMem p.addr (pieceSize p)

/-- The bytes of `pbf` that belong to the register, as many as it has. -/
def registerBytes (big : Bool) (p : LocationPiece) (r : RegisterDefinition) (pbf : List UInt8) :
    List UInt8 :=
  inOrder r.bigEndian big ((if big then pbf.drop (pieceSize p - r.size) else pbf).take r.size)

def storePiece (refuse : Refusals) (big : Bool) (p : LocationPiece) (pbf : List UInt8)
    (s : Target) : Result Target :=
  match p.reg with
  | some r => do
    allowed refuse (.writeReg r)
    return s.writeReg r (Vector.ofFn fun k => (registerBytes big p r pbf).getD k 0)
  | none => do
    allowed refuse (.writeMem p.addr (pieceSize p))
    return s.writeMem p.addr pbf

/-- A piece that stands for nothing that is there. -/
def checkPiece (verb : String) (p : LocationPiece) : Result Unit :=
  if p.optimizedAway then
    raised (strException Err.other ("Cannot " ++ verb ++ " symbol value: optimized away"))
  else if p.implicitPointer ≠ 0 then
    raised (strException Err.other ("Cannot " ++ verb ++ " symbol value: implicit pointer"))
  else .ok ()

/-! ## Moving bits -/

/-- A byte of a buffer that is there. -/
def inBuffer (bytes : List UInt8) (i : Nat) : Result Unit :=
  if i / 8 < bytes.length then .ok () else .error .fault

/-- `if (pbf[i / 8] & bit_mask(i)) bf[bf_offs / 8] |= bit_mask(bf_offs)`, so many times. -/
def gather (big : Bool) (pbf : List UInt8) : Nat → Nat → Nat → List UInt8 →
    Result (List UInt8 × Nat)
  | 0, _, bfOffs, bf => .ok (bf, bfOffs)
  | n + 1, i, bfOffs, bf => do
    inBuffer pbf i
    if bitAt big pbf i then
      inBuffer bf bfOffs
      gather big pbf n (i + 1) (unsigned (bfOffs + 1)) (putAt big bf bfOffs true)
    else gather big pbf n (i + 1) (unsigned (bfOffs + 1)) bf

/-- `pbf[i / 8]` takes the bits of `bf`; where there are none it stays as it is. -/
def scatter (big : Bool) (bf : List UInt8) : Nat → Nat → Nat → List UInt8 →
    Result (List UInt8 × Nat)
  | 0, _, bfOffs, pbf => .ok (pbf, bfOffs)
  | n + 1, i, bfOffs, pbf =>
    if bfOffs / 8 ≥ bf.length then scatter big bf n (i + 1) (unsigned (bfOffs + 1)) pbf
    else do
      inBuffer pbf i
      scatter big bf n (i + 1) (unsigned (bfOffs + 1)) (putAt big pbf i (bitAt big bf bfOffs))

/-! ## Lists of pieces -/

/-- `unsigned bf_bits` -/
def bufferBits (pieces : List LocationPiece) : Nat := unsigned (pieces.map pieceBits).sum

/-- `bf_size` -/
def bufferSize (pieces : List LocationPiece) : Nat := unsigned (bufferBits pieces + 7) / 8

/-- `pbf` of a piece that is read, which can be a constant. -/
def sourcePiece (refuse : Refusals) (big : Bool) (p : LocationPiece) (s : Target) :
    Result (List UInt8) :=
  match p.reg, p.value with
  | none, some value => .ok value
  | _, _ => loadPiece refuse big p s

def readPieces (refuse : Refusals) (big : Bool) (s : Target) : List LocationPiece → Nat →
    List UInt8 → Result (List UInt8)
  | [], _, bf => .ok bf
  | p :: pieces, bfOffs, bf => do
    checkPiece "get" p
    let pbf ← sourcePiece refuse big p s
    let r ← gather big pbf (turns p) p.bitOffs.toNat bfOffs bf
    readPieces refuse big s pieces r.2 r.1

/-- `read_location_pieces` -/
def readLocationPieces (refuse : Refusals) (big : Bool) (pieces : List LocationPiece)
    (s : Target) : Result (List UInt8) :=
  let bfOffs := if big then unsigned (bufferSize pieces * 8 + 2 ^ 32 - bufferBits pieces) else 0
  readPieces refuse big s pieces bfOffs (List.replicate (bufferSize pieces) 0)

def writePieces (refuse : Refusals) (big : Bool) (bf : List UInt8) : List LocationPiece → Nat →
    Target → Result Target
  | [], _, s => .ok s
  | p :: pieces, bfOffs, s => do
    checkPiece "set" p
    if p.reg = none ∧ p.value ≠ none then
      raised (strException Err.other "Cannot write to a constant value")
    else
      let pbf ← loadPiece refuse big p s
      let r ← scatter big bf (turns p) p.bitOffs.toNat bfOffs pbf
      let s ← storePiece refuse big p r.1 s
      writePieces refuse big bf pieces r.2 s

/-- `write_location_pieces` -/
def writeLocationPieces (refuse : Refusals) (big : Bool) (pieces : List LocationPiece)
    (value : List UInt8) (s : Target) : Result Target :=
  let bfOffs :=
    if big = true ∧ bufferSize pieces ≤ value.length then
      unsigned (value.length * 8 + 2 ^ 32 - bufferBits pieces)
    else 0
  writePieces refuse big value pieces bfOffs s

/-! ## The bits of the target -/

/-- A bit of a byte of memory, or of a byte of a register. -/
inductive Place where
  | mem (addr : Word) (n : Nat)
  | reg (r : RegisterDefinition) (k n : Nat)
deriving DecidableEq

def Target.bit (s : Target) : Place → Bool
  | .mem addr n => (s.mem addr).toBitVec.getLsbD n
  | .reg r k n => ((s.reg r).toList.getD k 0).toBitVec.getLsbD n

variable (s : Target)

@[simp] theorem Target.bit_mem (addr : Word) (n : Nat) :
    s.bit (.mem addr n) = (s.mem addr).toBitVec.getLsbD n := rfl

@[simp] theorem Target.bit_reg (r : RegisterDefinition) (k n : Nat) :
    s.bit (.reg r k n) = ((s.reg r).toList.getD k 0).toBitVec.getLsbD n := rfl

@[simp] theorem Target.writeMem_mem (addr a : Word) (bytes : List UInt8) :
    (s.writeMem addr bytes).mem a = bytes.getD (a - addr).toNat (s.mem a) := rfl

@[simp] theorem Target.writeMem_reg (addr : Word) (bytes : List UInt8)
    (r : RegisterDefinition) : (s.writeMem addr bytes).reg r = s.reg r := rfl

@[simp] theorem Target.writeReg_mem (r : RegisterDefinition)
    (bytes : Vector UInt8 r.size) (a : Word) : (s.writeReg r bytes).mem a = s.mem a := rfl

@[simp] theorem Target.writeReg_self (r : RegisterDefinition)
    (bytes : Vector UInt8 r.size) : (s.writeReg r bytes).reg r = bytes := by
  simp only [Target.writeReg, Function.update_self]

theorem Target.writeReg_of_ne {r r' : RegisterDefinition} (h : r' ≠ r)
    (bytes : Vector UInt8 r.size) : (s.writeReg r bytes).reg r' = s.reg r' := by
  simp only [Target.writeReg, Function.update_of_ne h]

/-- Where the bit `i` of the buffer of a piece comes from. -/
def place (big : Bool) (p : LocationPiece) (i : Nat) : Place :=
  match p.reg with
  | some r => .reg r (if r.bigEndian = big then i / 8 else r.size - 1 - i / 8) (bitNumber big i)
  | none => .mem (p.addr + BitVec.ofNat 64 (i / 8)) (bitNumber big i)

/-- How many bytes the buffer of a piece has. -/
def bufferLength (p : LocationPiece) : Nat :=
  match p.reg with
  | some r => r.size
  | none => pieceSize p

/-- A register is at least as large as its piece. -/
def Large (p : LocationPiece) : Prop := ∀ r, p.reg = some r → pieceSize p ≤ r.size

section

variable {refuse : Refusals} {big : Bool} {p : LocationPiece} {s s' : Target} {pbf : List UInt8}
  {i j : Nat}

theorem unsigned_lt (n : Nat) : unsigned n < 2 ^ 32 := Nat.mod_lt _ (Nat.two_pow_pos 32)

theorem pieceSize_lt (p : LocationPiece) : pieceSize p < 2 ^ 32 := by
  unfold pieceSize
  split
  · exact unsigned_lt _
  · exact (Nat.div_le_self _ _).trans_lt (unsigned_lt _)

theorem allowed_none {a : Access} (h : refuse a = none) : allowed refuse a = .ok () := by
  rw [allowed, h]

theorem length_inOrder (wanted : Bool) (bytes : List UInt8) :
    (inOrder big wanted bytes).length = bytes.length := by
  unfold inOrder
  split
  · rfl
  · exact List.length_reverse

/-- Bytes in the other order stand at the other end. -/
theorem getD_inOrder (wanted : Bool) (bytes : List UInt8) {k : Nat} (hk : k < bytes.length) :
    (inOrder big wanted bytes).getD k 0 =
      bytes.getD (if big = wanted then k else bytes.length - 1 - k) 0 := by
  unfold inOrder
  split
  · rfl
  · rw [List.getD_eq_getElem?_getD, List.getD_eq_getElem?_getD, List.getElem?_reverse hk]

/-- The buffer of a piece, without an access that is refused. -/
def buffer (big : Bool) (p : LocationPiece) (s : Target) : List UInt8 :=
  match p.reg with
  | some r => inOrder r.bigEndian big (s.reg r).toList
  | none => s.readMem p.addr (pieceSize p)

/-- What is asked of the target. -/
def loading (p : LocationPiece) : Access :=
  match p.reg with
  | some r => .readReg r
  | none => .readMem p.addr (pieceSize p)

def storing (p : LocationPiece) : Access :=
  match p.reg with
  | some r => .writeReg r
  | none => .writeMem p.addr (pieceSize p)

theorem loadPiece_eq (h : Large p) :
    loadPiece refuse big p s = (allowed refuse (loading p)).map fun _ => buffer big p s := by
  unfold loadPiece loading buffer
  rcases hReg : p.reg with - | r
  · cases allowed refuse (.readMem p.addr (pieceSize p)) <;> rfl
  · have hNone : pieceSize p - r.size = 0 := Nat.sub_eq_zero_of_le (h r hReg)
    simp only [hNone, List.replicate_zero, List.nil_append, List.append_nil, ite_self]
    cases allowed refuse (.readReg r) <;> rfl

theorem length_buffer : (buffer big p s).length = bufferLength p := by
  unfold buffer bufferLength
  rcases p.reg with - | r
  · rw [Target.readMem, List.length_map, List.length_range]
  · rw [length_inOrder, Vector.length_toList]

/-- The bits of the buffer of a piece are bits of the target. -/
theorem bitAt_buffer (h : i / 8 < bufferLength p) :
    bitAt big (buffer big p s) i = s.bit (place big p i) := by
  unfold buffer bufferLength place at *
  rcases hReg : p.reg with - | r
  · simp only [hReg] at h ⊢
    unfold bitAt
    rw [Target.readMem, List.getD_eq_getElem?_getD, List.getElem?_map, List.getElem?_range h]
    rfl
  · simp only [hReg] at h ⊢
    unfold bitAt
    rw [getD_inOrder _ _ (by rwa [Vector.length_toList]), Vector.length_toList]
    rfl

/-- The target with a buffer written back. -/
def stored (big : Bool) (p : LocationPiece) (pbf : List UInt8) (s : Target) : Target :=
  match p.reg with
  | some r => s.writeReg r (Vector.ofFn fun k => (inOrder r.bigEndian big pbf).getD k 0)
  | none => s.writeMem p.addr pbf

theorem storePiece_eq (h : Large p) (hLength : pbf.length = bufferLength p) :
    storePiece refuse big p pbf s =
      (allowed refuse (storing p)).map fun _ => stored big p pbf s := by
  unfold storePiece storing stored
  unfold bufferLength at hLength
  rcases hReg : p.reg with - | r
  · cases allowed refuse (.writeMem p.addr (pieceSize p)) <;> rfl
  · simp only [hReg] at hLength ⊢
    have hNone : pieceSize p - r.size = 0 := Nat.sub_eq_zero_of_le (h r hReg)
    have hBytes : registerBytes big p r pbf = inOrder r.bigEndian big pbf := by
      rw [registerBytes, hNone, List.drop_zero, ite_self, ← hLength, List.take_length]
    rw [hBytes]
    cases allowed refuse (.writeReg r) <;> rfl

theorem sub_offset (addr : Word) {k : Nat} (hk : k < 2 ^ 64) :
    (addr + BitVec.ofNat 64 k - addr).toNat = k := by
  rw [add_sub_cancel_left, BitVec.toNat_ofNat, Nat.mod_eq_of_lt hk]

/-- What is written back is there. -/
theorem stored_bit (hLength : pbf.length = bufferLength p) (h : i / 8 < bufferLength p) :
    (stored big p pbf s).bit (place big p i) = bitAt big pbf i := by
  have hSize := pieceSize_lt p
  unfold stored place bufferLength at *
  rcases hReg : p.reg with - | r
  · simp only [hReg] at h hLength ⊢
    have hk : i / 8 < 2 ^ 64 := h.trans (hSize.trans (by decide))
    rw [Target.bit_mem, Target.writeMem_mem, sub_offset p.addr hk, List.getD_eq_getElem?_getD,
      List.getElem?_eq_getElem (by omega), bitAt, List.getD_eq_getElem?_getD,
      List.getElem?_eq_getElem (by omega)]
    rfl
  · simp only [hReg] at h hLength ⊢
    have hIndex : (if r.bigEndian = big then i / 8 else r.size - 1 - i / 8) < r.size := by
      split <;> omega
    have hEntry : (if r.bigEndian = big then (if r.bigEndian = big then i / 8
        else r.size - 1 - i / 8) else r.size - 1 - (if r.bigEndian = big then i / 8
          else r.size - 1 - i / 8)) = i / 8 := by
      split <;> omega
    rw [Target.bit_reg, Target.writeReg_self, List.getD_eq_getElem?_getD, Vector.getElem?_toList,
      Vector.getElem?_ofFn, dif_pos hIndex, Option.getD_some, getD_inOrder _ _ (by omega), hLength,
      hEntry]
    rfl

/-- A bit of the target that is not of the piece stays. -/
theorem stored_other (hLength : pbf.length = bufferLength p) {pl : Place}
    (h : ∀ i, i / 8 < bufferLength p → place big p i ≠ pl) :
    (stored big p pbf s).bit pl = s.bit pl := by
  unfold stored place bufferLength at *
  rcases hReg : p.reg with - | r
  · simp only [hReg] at h hLength ⊢
    rcases pl with ⟨a, n⟩ | ⟨r, k, n⟩
    · rw [Target.bit_mem, Target.bit_mem, Target.writeMem_mem]
      by_cases hOut : pbf.length ≤ (a - p.addr).toNat
      · rw [List.getD_eq_getElem?_getD, List.getElem?_eq_none hOut, Option.getD_none]
      · by_cases hn : n < 8
        · obtain ⟨i, hByte, hNumber⟩ := exists_bitNumber big (a - p.addr).toNat hn
          refine absurd ?_ (h i (by omega))
          rw [hByte, hNumber, BitVec.ofNat_toNat, BitVec.setWidth_eq, add_sub_cancel]
        · rw [BitVec.getLsbD_of_ge _ _ (Nat.le_of_not_lt hn),
            BitVec.getLsbD_of_ge _ _ (Nat.le_of_not_lt hn)]
    · rw [Target.bit_reg, Target.bit_reg, Target.writeMem_reg]
  · simp only [hReg] at h hLength ⊢
    rcases pl with ⟨a, n⟩ | ⟨r', k, n⟩
    · rw [Target.bit_mem, Target.bit_mem, Target.writeReg_mem]
    · rw [Target.bit_reg, Target.bit_reg]
      by_cases hSame : r' = r
      · subst hSame
        by_cases hk : k < r'.size
        · by_cases hn : n < 8
          · obtain ⟨i, hByte, hNumber⟩ := exists_bitNumber big
              (if r'.bigEndian = big then k else r'.size - 1 - k) hn
            have hEntry : (if r'.bigEndian = big then i / 8 else r'.size - 1 - i / 8) = k := by
              rw [hByte]
              split <;> omega
            have hIn : i / 8 < r'.size := by
              rw [hByte]
              split <;> omega
            refine absurd ?_ (h i hIn)
            rw [hEntry, hNumber]
          · rw [BitVec.getLsbD_of_ge _ _ (Nat.le_of_not_lt hn),
              BitVec.getLsbD_of_ge _ _ (Nat.le_of_not_lt hn)]
        · have hOut : ∀ v : Vector UInt8 r'.size, v.toList.getD k 0 = 0 := by
            intro v
            rw [List.getD_eq_getElem?_getD, List.getElem?_eq_none, Option.getD_none]
            rw [Vector.length_toList]
            omega
          rw [hOut, hOut]
      · rw [Target.writeReg_of_ne s hSame]

end

end TcfAgent.Pieces
