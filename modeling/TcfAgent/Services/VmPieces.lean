import TcfAgent.Services.VmStack

/-!
# Location pieces that are cut

`OP_TCF_offset` of `services/vm.c`: the pieces that are left hold the bits of the pieces before it
without the first ones. The contents of a piece are those that `read_location_pieces` takes from
it, bit by bit, with the reason where they cannot be read; that a piece is reached through an
implicit pointer does not count.

Main results:

* `without_remains`      — what is left of one piece holds the rest of its contents;
* `offsetPieces_contents` — the contents of the pieces that are left;
* `offset_takes_suffix`  — what the operation does.
-/

namespace TcfAgent.VmEval

open TcfAgent.Lib TcfAgent.Location TcfAgent.Dwarf
open TcfAgent.Vm (invDwarf)

variable {Frame : Type}

/-! ## Contents -/

/-- The number of bits, when it is not reduced to 32 bits. -/
def LocationPiece.bitCount (p : LocationPiece) : Nat :=
  if p.bitSize ≠ 0 then p.bitSize.toNat else p.size * 8

def totalBits (pieces : List LocationPiece) : Nat := (pieces.map LocationPiece.bitCount).sum

/-- The bits of a piece lie in its bytes, and these are as many as there are where they come
from. -/
structure LocationPiece.WellFormed (p : LocationPiece) : Prop where
  width    : p.bitOffs.toNat + p.bitCount + 7 < 2 ^ 32
  inside   : p.size ≠ 0 → p.bitOffs.toNat + p.bitCount ≤ 8 * p.size
  register : ∀ reg, p.reg = some reg → p.bitSize ≠ 0 → p.bitOffs = 0 → p.size ≤ reg.size
  memory   : p.reg = none → p.value = none → p.bitSize ≠ 0 → p.bitOffs = 0 → p.size = 0

section

variable (env : Env Frame) (frame : Frame) (big : Bool)

/-- The bytes of a piece, with the reason when they cannot be read. -/
def bytesIn (p : LocationPiece) : Except Failure (List UInt8) :=
  pieceBuffer env frame big { p with implicitPointer := 0 }

/-- The bit `i` of the bytes of a piece. -/
def bitIn (p : LocationPiece) (i : Nat) : Except Failure Bool :=
  (bytesIn env frame big p).map fun bytes => readBit env big bytes i

/-- The bits of a piece. -/
def contents (p : LocationPiece) : List (Except Failure Bool) :=
  (List.range p.bitCount).map fun i => bitIn env frame big p (p.bitOffs.toNat + i)

theorem length_contents (p : LocationPiece) : (contents env frame big p).length = p.bitCount := by
  rw [contents, List.length_map, List.length_range]

theorem length_flatMap_contents (pieces : List LocationPiece) :
    (pieces.flatMap (contents env frame big)).length = totalBits pieces := by
  rw [List.length_flatMap, totalBits]
  congr 1
  exact List.map_congr_left fun p _ => length_contents env frame big p

/-- A piece with the same bytes and without the first bits. -/
theorem contents_drop {p q : LocationPiece} {k : Nat}
    (hBytes : bytesIn env frame big q = bytesIn env frame big p)
    (hOffs : q.bitOffs.toNat = p.bitOffs.toNat + k) (hCount : q.bitCount = p.bitCount - k) :
    contents env frame big q = (contents env frame big p).drop k := by
  refine List.ext_getElem ?_ fun i hi hi' => ?_
  · rw [List.length_drop, length_contents, length_contents, hCount]
  · rw [List.getElem_drop]
    simp only [contents, List.getElem_map, List.getElem_range, bitIn, hBytes, hOffs, Nat.add_assoc]

end

/-! ## Pieces that are cut -/

/-- `if (org_piece->bit_size == 0) org_piece->bit_size = org_piece->size * 8` -/
def LocationPiece.inBits (p : LocationPiece) : LocationPiece :=
  if p.bitSize = 0 then { p with bitSize := bits p.size } else p

/-- What is left of a piece without its first bits. -/
def LocationPiece.without (p : LocationPiece) (skip : BitVec 32) : LocationPiece :=
  normalPiece (splitPiece p.inBits skip)

section

variable {p q : LocationPiece} {skip : BitVec 32}

theorem LocationPiece.WellFormed.toNat_inBits (h : p.WellFormed) :
    p.inBits.bitSize.toNat = p.bitCount := by
  have hWidth := h.width
  by_cases hBits : p.bitSize = 0
  · have hCount : p.bitCount = p.size * 8 := if_neg (by simpa using hBits)
    have hSize : p.inBits = { p with bitSize := bits p.size } := if_pos hBits
    rw [hSize, hCount]
    show (BitVec.ofNat 32 (p.size * 8)).toNat = _
    rw [BitVec.toNat_ofNat]
    omega
  · have hCount : p.bitCount = p.bitSize.toNat := if_pos hBits
    have hSame : p.inBits = p := if_neg hBits
    rw [hSame, hCount]

/-- `unsigned piece_size` as a number. -/
theorem pieceSize_eq (hWidth : p.bitOffs.toNat + p.bitSize.toNat + 7 < 2 ^ 32) :
    p.pieceSize = if p.size ≠ 0 then p.size else (p.bitOffs.toNat + p.bitSize.toNat + 7) / 8 := by
  have hSum : (p.bitOffs + p.bitSize + 7).toNat = p.bitOffs.toNat + p.bitSize.toNat + 7 := by
    rw [BitVec.toNat_add, BitVec.toNat_add]
    have hSeven : (7 : BitVec 32).toNat = 7 := rfl
    omega
  unfold LocationPiece.pieceSize
  rw [BitVec.toNat_udiv, hSum]
  rfl

theorem bytesIn_eq (env : Env Frame) (frame : Frame) (big : Bool)
    (hPlace : q.optimizedAway = p.optimizedAway ∧ q.addr = p.addr ∧ q.reg = p.reg ∧
      q.value = p.value)
    (hReg : ∀ reg, p.reg = some reg → q.pieceSize - reg.size = p.pieceSize - reg.size)
    (hMemory : p.reg = none → p.value = none → q.pieceSize = p.pieceSize) :
    bytesIn env frame big q = bytesIn env frame big p := by
  obtain ⟨hAway, hAddr, hSameReg, hValue⟩ := hPlace
  have hSizeQ : { q with implicitPointer := 0 }.pieceSize = q.pieceSize := rfl
  have hSizeP : { p with implicitPointer := 0 }.pieceSize = p.pieceSize := rfl
  unfold bytesIn pieceBuffer
  rw [hSizeQ, hSizeP, hAway, hAddr, hSameReg, hValue]
  cases hCase : p.reg with
  | some reg => simp only [hReg reg hCase]
  | none =>
    cases hNone : p.value with
    | some value => rfl
    | none => rw [hMemory hCase hNone]

/-- What `OP_TCF_offset` leaves of a piece: it takes the bytes from where they were. -/
structure Remains (p q : LocationPiece) (k : Nat) : Prop where
  bytes    : ∀ {Frame : Type} (env : Env Frame) frame big,
    bytesIn env frame big q = bytesIn env frame big p
  bitOffs  : q.bitOffs.toNat = p.bitOffs.toNat + k
  bitCount : q.bitCount = p.bitCount - k
  pointer  : q.implicitPointer = p.implicitPointer + 1
  wellFormed : q.WellFormed

/-- Only `bit_size` is filled in. -/
theorem inBits_eq (p : LocationPiece) : p.inBits = { p with bitSize := p.inBits.bitSize } := by
  unfold LocationPiece.inBits
  split <;> rfl

theorem LocationPiece.WellFormed.bitOffs_add (h : p.WellFormed) (hLe : skip.toNat ≤ p.bitCount) :
    (p.bitOffs + skip).toNat = p.bitOffs.toNat + skip.toNat := by
  have hWidth := h.width
  rw [BitVec.toNat_add]
  omega

theorem LocationPiece.WellFormed.bitSize_sub (h : p.WellFormed) (hLe : skip.toNat ≤ p.bitCount) :
    (p.inBits.bitSize - skip).toNat = p.bitCount - skip.toNat := by
  rw [BitVec.toNat_sub_of_le (by rw [BitVec.le_def, h.toNat_inBits]; exact hLe), h.toNat_inBits]

theorem bitCount_eq_zero (h : p.bitCount = 0) : p.bitSize = 0 ∧ p.size = 0 := by
  by_cases hBit : p.bitSize = 0
  · have hCount : p.bitCount = p.size * 8 := if_neg (by simpa using hBit)
    exact ⟨hBit, by omega⟩
  · have hCount : p.bitCount = p.bitSize.toNat := if_pos hBit
    have hZero : p.bitSize.toNat = (0 : BitVec 32).toNat := hCount.symm.trans h
    exact absurd (BitVec.eq_of_toNat_eq hZero) hBit

/-- Without a size in bytes there are as many bytes as the bits need. -/
theorem LocationPiece.WellFormed.pieceSize_of_bits (h : p.WellFormed) (hZero : p.size = 0) :
    p.pieceSize = (p.bitOffs.toNat + p.bitCount + 7) / 8 := by
  have hWidth := h.width
  have hCount : p.bitCount = p.bitSize.toNat := by
    unfold LocationPiece.bitCount
    split
    · rfl
    · rename_i hBit
      have hBit : p.bitSize = 0 := by simpa using hBit
      rw [hZero, hBit]
      rfl
  rw [pieceSize_eq (by omega), if_neg (by simpa using hZero), hCount]

/-- A piece that begins at its first byte and has whole bytes is given a size in bytes. -/
theorem without_whole (h : p.WellFormed) (hLe : skip.toNat ≤ p.bitCount)
    (hNormal : p.inBits.bitOffs + skip = 0 ∧ (p.inBits.bitSize - skip) % 8 = 0) :
    Remains p (p.without skip) skip.toNat := by
  have hEq : p.without skip = { p with
      bitOffs := 0
      size := ((p.inBits.bitSize - skip) / 8).toNat
      bitSize := 0
      implicitPointer := p.implicitPointer + 1 } := by
    unfold LocationPiece.without normalPiece splitPiece
    rw [if_pos hNormal, hNormal.1, inBits_eq]
  have hNewOffs := h.bitOffs_add hLe
  have hNewSize := h.bitSize_sub hLe
  obtain ⟨hStart, hWhole⟩ := hNormal
  rw [inBits_eq] at hStart
  rw [show p.bitOffs + skip = 0 from hStart] at hNewOffs
  have hNewOffs : 0 = p.bitOffs.toNat + skip.toNat := hNewOffs
  have hWhole : p.bitCount % 8 = 0 := by
    have hNat := congrArg BitVec.toNat hWhole
    rw [BitVec.toNat_umod, hNewSize] at hNat
    have hNat : (p.bitCount - skip.toNat) % 8 = 0 := hNat
    omega
  have hBytes : ((p.inBits.bitSize - skip) / 8).toNat = p.bitCount / 8 := by
    rw [BitVec.toNat_udiv, hNewSize]
    show (p.bitCount - skip.toNat) / 8 = _
    congr 1
    omega
  rw [hBytes] at hEq
  have hSizeQ : (p.without skip).pieceSize = p.bitCount / 8 := by
    rw [hEq]
    unfold LocationPiece.pieceSize
    dsimp only
    split
    · rfl
    · rename_i hZero
      have hNone : p.bitCount / 8 = 0 := by simpa using hZero
      rw [hNone]
      rfl
  have hSame : p.pieceSize = p.bitCount / 8 ∨ (p.bitSize ≠ 0 ∧ p.size ≠ 0) := by
    by_cases hZero : p.size = 0
    · have hSize := h.pieceSize_of_bits hZero
      omega
    · have hSize : p.pieceSize = p.size := if_pos hZero
      by_cases hBit : p.bitSize = 0
      · have hCount : p.bitCount = p.size * 8 := if_neg (by simpa using hBit)
        omega
      · exact .inr ⟨hBit, hZero⟩
  have hOffsZero : p.bitOffs = 0 := BitVec.eq_of_toNat_eq (by
    show p.bitOffs.toNat = 0
    omega)
  refine ⟨fun env frame big => bytesIn_eq env frame big ?_ ?_ ?_, ?_, ?_, ?_, ?_⟩
  · rw [hEq]
    exact ⟨rfl, rfl, rfl, rfl⟩
  · intro reg hSome
    rw [hSizeQ]
    rcases hSame with hSame | ⟨hBit, hNe⟩
    · rw [hSame]
    · have hReg := h.register reg hSome hBit hOffsZero
      have hInside := h.inside hNe
      have hSize : p.pieceSize = p.size := if_pos hNe
      omega
  · intro hNoReg hNoValue
    rw [hSizeQ]
    rcases hSame with hSame | ⟨hBit, hNe⟩
    · exact hSame.symm
    · exact absurd (h.memory hNoReg hNoValue hBit hOffsZero) hNe
  · rw [hEq]
    exact hNewOffs
  · rw [hEq]
    show p.bitCount / 8 * 8 = _
    omega
  · rw [hEq]
  · rw [hEq]
    have hWidth := h.width
    refine ⟨?_, fun _ => ?_, fun reg _ hBit => absurd rfl hBit, fun _ _ hBit => absurd rfl hBit⟩
    · show 0 + p.bitCount / 8 * 8 + 7 < _
      omega
    · show 0 + p.bitCount / 8 * 8 ≤ 8 * (p.bitCount / 8)
      omega

/-- Any other piece keeps its size. -/
theorem without_part (h : p.WellFormed) (hSkip : skip = 0 ∨ skip.toNat < p.bitCount)
    (hNormal : ¬ (p.inBits.bitOffs + skip = 0 ∧ (p.inBits.bitSize - skip) % 8 = 0)) :
    Remains p (p.without skip) skip.toNat := by
  have hLe : skip.toNat ≤ p.bitCount := by
    rcases hSkip with rfl | hSkip
    · exact Nat.zero_le _
    · exact hSkip.le
  have hEq : p.without skip = { p with
      bitOffs := p.bitOffs + skip
      bitSize := p.inBits.bitSize - skip
      implicitPointer := p.implicitPointer + 1 } := by
    unfold LocationPiece.without normalPiece splitPiece
    rw [if_neg hNormal, inBits_eq]
  have hWidth := h.width
  have hNewOffs := h.bitOffs_add hLe
  have hNewSize := h.bitSize_sub hLe
  -- a piece that has lost all its bits counts its bytes again, and has none
  have hCountQ : (p.without skip).bitCount = p.bitCount - skip.toNat := by
    rw [hEq, ← hNewSize]
    unfold LocationPiece.bitCount
    split
    · rfl
    · rename_i hBit
      have hBit : p.inBits.bitSize - skip = 0 := by simpa using hBit
      rw [hBit] at hNewSize ⊢
      have hNone : 0 = p.bitCount - skip.toNat := hNewSize
      have hEmpty : p.bitCount = 0 := by
        rcases hSkip with rfl | hSkip
        · exact hNone.symm
        · omega
      rw [(bitCount_eq_zero hEmpty).2]
      rfl
  have hSizeQ : (p.without skip).pieceSize = p.pieceSize := by
    rw [hEq]
    by_cases hZero : p.size = 0
    · rw [pieceSize_eq (by show (p.bitOffs + skip).toNat + (p.inBits.bitSize - skip).toNat + 7 < _
                           omega),
        if_neg (by simpa using hZero), h.pieceSize_of_bits hZero]
      show ((p.bitOffs + skip).toNat + (p.inBits.bitSize - skip).toNat + 7) / 8 = _
      congr 1
      omega
    · exact (if_pos hZero).trans (if_pos hZero).symm
  have hBitOf : p.bitOffs + skip = 0 → p.bitOffs = 0 ∧ p.bitSize ≠ 0 := by
    intro hZero
    rw [hZero] at hNewOffs
    have hNewOffs : 0 = p.bitOffs.toNat + skip.toNat := hNewOffs
    refine ⟨BitVec.eq_of_toNat_eq (by show p.bitOffs.toNat = 0; omega), fun hBit => hNormal ?_⟩
    have hCount : p.bitCount = p.size * 8 := if_neg (by simpa using hBit)
    rw [inBits_eq]
    refine ⟨hZero, BitVec.eq_of_toNat_eq ?_⟩
    rw [BitVec.toNat_umod, hNewSize]
    show (p.bitCount - skip.toNat) % 8 = 0
    omega
  refine ⟨fun env frame big => bytesIn_eq env frame big ?_ ?_ ?_, ?_, hCountQ, ?_, ?_⟩
  · rw [hEq]
    exact ⟨rfl, rfl, rfl, rfl⟩
  · intro reg _
    rw [hSizeQ]
  · intro _ _
    exact hSizeQ
  · rw [hEq]
    exact hNewOffs
  · rw [hEq]
  · have hOffsQ : (p.without skip).bitOffs = p.bitOffs + skip := by rw [hEq]
    have hSizeField : (p.without skip).size = p.size := by rw [hEq]
    have hRegField : (p.without skip).reg = p.reg := by rw [hEq]
    have hValueField : (p.without skip).value = p.value := by rw [hEq]
    refine ⟨?_, fun hSome => ?_, fun reg hReg _ hZero => ?_, fun hNoReg hNoValue _ hZero => ?_⟩
    · rw [hOffsQ, hNewOffs, hCountQ]
      omega
    · rw [hSizeField] at hSome ⊢
      have hInside := h.inside hSome
      rw [hOffsQ, hNewOffs, hCountQ]
      omega
    · rw [hOffsQ] at hZero
      rw [hSizeField]
      exact h.register reg (hRegField ▸ hReg) (hBitOf hZero).2 (hBitOf hZero).1
    · rw [hOffsQ] at hZero
      rw [hSizeField]
      exact h.memory (hRegField ▸ hNoReg) (hValueField ▸ hNoValue) (hBitOf hZero).2 (hBitOf hZero).1

theorem without_remains (h : p.WellFormed) (hSkip : skip = 0 ∨ skip.toNat < p.bitCount) :
    Remains p (p.without skip) skip.toNat := by
  by_cases hNormal : p.inBits.bitOffs + skip = 0 ∧ (p.inBits.bitSize - skip) % 8 = 0
  · refine without_whole h ?_ hNormal
    rcases hSkip with rfl | hSkip
    · exact Nat.zero_le _
    · exact hSkip.le
  · exact without_part h hSkip hNormal

end

section

variable {env : Env Frame} {frame : Frame} {big : Bool} {p : LocationPiece}
  {pieces : List LocationPiece} {offs bitOffs : BitVec 32}

theorem Remains.contents {q : LocationPiece} {k : Nat} (h : Remains p q k) :
    VmEval.contents env frame big q = (VmEval.contents env frame big p).drop k :=
  contents_drop env frame big (h.bytes env frame big) h.bitOffs h.bitCount

/-- A round of the loop of `OP_TCF_offset`, when the positions are numbers of 32 bits. -/
theorem offsetPieces_cons (h : p.WellFormed) (hSmall : bitOffs.toNat + p.bitCount < 2 ^ 32) :
    offsetPieces offs bitOffs (p :: pieces) =
      if offs.toNat < bitOffs.toNat + p.bitCount then
        p.without (if bitOffs < offs then offs - bitOffs else 0) ::
          offsetPieces offs (bitOffs + p.inBits.bitSize) pieces
      else offsetPieces offs (bitOffs + p.inBits.bitSize) pieces := by
  have hEnd : (bitOffs + p.inBits.bitSize).toNat = bitOffs.toNat + p.bitCount := by
    rw [BitVec.toNat_add, h.toNat_inBits]
    omega
  have hIf : bitOffs + p.inBits.bitSize > offs ↔ offs.toNat < bitOffs.toNat + p.bitCount := by
    rw [GT.gt, BitVec.lt_def, hEnd]
  have hSkip : splitPiece p.inBits (if bitOffs < offs then offs - bitOffs else 0) =
      if bitOffs < offs then splitPiece p.inBits (offs - bitOffs) else p.inBits := by
    split
    · rfl
    · simp [splitPiece]
  have hRound : offsetPieces offs bitOffs (p :: pieces) =
      if bitOffs + p.inBits.bitSize > offs then
        normalPiece (if bitOffs < offs then splitPiece p.inBits (offs - bitOffs) else p.inBits) ::
          offsetPieces offs (bitOffs + p.inBits.bitSize) pieces
      else offsetPieces offs (bitOffs + p.inBits.bitSize) pieces := rfl
  rw [hRound, LocationPiece.without, hSkip]
  exact if_congr hIf rfl rfl

/-- The piece in which the offset ends is cut there. -/
theorem skip_toNat (h : offs.toNat < bitOffs.toNat + p.bitCount) :
    (if bitOffs < offs then offs - bitOffs else 0).toNat = offs.toNat - bitOffs.toNat ∧
      ((if bitOffs < offs then offs - bitOffs else 0) = 0 ∨
        (if bitOffs < offs then offs - bitOffs else 0).toNat < p.bitCount) := by
  split
  · rename_i hLt
    have hLe : bitOffs.toNat ≤ offs.toNat := (BitVec.lt_def.1 hLt).le
    have hNat : (offs - bitOffs).toNat = offs.toNat - bitOffs.toNat :=
      BitVec.toNat_sub_of_le (BitVec.le_def.2 hLe)
    have hLtNat := BitVec.lt_def.1 hLt
    exact ⟨hNat, .inr (by omega)⟩
  · rename_i hNot
    have hLe : offs.toNat ≤ bitOffs.toNat := Nat.not_lt.1 fun hLt => hNot (BitVec.lt_def.2 hLt)
    refine ⟨?_, .inl rfl⟩
    show 0 = _
    omega

/-- The rounds of the loop, where the position behind every piece is a number of 32 bits. -/
@[elab_as_elim]
theorem offset_rounds {motive : BitVec 32 → List LocationPiece → Prop}
    (hNil : ∀ bitOffs, motive bitOffs [])
    (hCons : ∀ (bitOffs : BitVec 32) (p : LocationPiece) (pieces : List LocationPiece),
    p.WellFormed →
      (bitOffs + p.inBits.bitSize).toNat = bitOffs.toNat + p.bitCount →
      bitOffs.toNat + p.bitCount + totalBits pieces < 2 ^ 32 →
      motive (bitOffs + p.inBits.bitSize) pieces → motive bitOffs (p :: pieces))
    (hWell : ∀ p ∈ pieces, p.WellFormed) (hSmall : bitOffs.toNat + totalBits pieces < 2 ^ 32) :
    motive bitOffs pieces := by
  induction pieces generalizing bitOffs with
  | nil => exact hNil bitOffs
  | cons p pieces ih =>
    have hp := hWell p (List.mem_cons_self)
    have hTotal : totalBits (p :: pieces) = p.bitCount + totalBits pieces := rfl
    have hEnd : (bitOffs + p.inBits.bitSize).toNat = bitOffs.toNat + p.bitCount := by
      rw [BitVec.toNat_add, hp.toNat_inBits]
      omega
    exact hCons _ _ _ hp hEnd (by omega)
      (ih (fun q hq => hWell q (List.mem_cons_of_mem _ hq)) (by omega))

/-- The pieces that are left are those behind the offset, with the first of them cut. -/
theorem offsetPieces_contents (hWell : ∀ p ∈ pieces, p.WellFormed)
    (hSmall : bitOffs.toNat + totalBits pieces < 2 ^ 32) :
    (offsetPieces offs bitOffs pieces).flatMap (contents env frame big) =
      (pieces.flatMap (contents env frame big)).drop (offs.toNat - bitOffs.toNat) := by
  refine offset_rounds (fun _ =>
    by simp [offsetPieces]) (fun bitOffs p pieces hp hEnd hTotal hRest => ?_) hWell hSmall
  rw [hEnd] at hRest
  rw [offsetPieces_cons hp (by omega), List.flatMap_cons, List.drop_append, length_contents]
  by_cases hKept : offs.toNat < bitOffs.toNat + p.bitCount
  · obtain ⟨hSkip, hCut⟩ := skip_toNat hKept
    rw [if_pos hKept, List.flatMap_cons, (without_remains hp hCut).contents, hSkip, hRest]
    congr 2
    omega
  · have hGone : (contents env frame big p).drop (offs.toNat - bitOffs.toNat) = [] :=
      List.drop_of_length_le (by rw [length_contents]; omega)
    rw [if_neg hKept, hRest, hGone, List.nil_append]
    congr 1
    omega

theorem mem_offsetPieces (hWell : ∀ p ∈ pieces, p.WellFormed)
    (hSmall : bitOffs.toNat + totalBits pieces < 2 ^ 32) :
    ∀ p ∈ offsetPieces offs bitOffs pieces, p.WellFormed := by
  refine offset_rounds (fun _ => List.forall_mem_nil _)
    (fun bitOffs p pieces hp hEnd hTotal hRest => ?_) hWell hSmall
  rw [offsetPieces_cons hp (by omega)]
  split
  · rename_i hKept
    exact List.forall_mem_cons.2 ⟨(without_remains hp (skip_toNat hKept).2).wellFormed, hRest⟩
  · exact hRest

theorem offsetPieces_end (hWell : ∀ p ∈ pieces, p.WellFormed)
    (hSmall : bitOffs.toNat + totalBits pieces < 2 ^ 32)
    (hEnd : bitOffs.toNat + totalBits pieces ≤ offs.toNat) :
    offsetPieces offs bitOffs pieces = [] := by
  revert hEnd
  refine offset_rounds (fun _ _ => rfl) (fun bitOffs p pieces hp hNext hTotal hRest hEnd => ?_)
    hWell hSmall
  have hSum : totalBits (p :: pieces) = p.bitCount + totalBits pieces := rfl
  rw [offsetPieces_cons hp (by omega), if_neg (by omega)]
  exact hRest (by omega)

/-- What is left are the last pieces, and one more pointer has to be followed to each. -/
theorem offsetPieces_pointers (offs : BitVec 32) (hWell : ∀ p ∈ pieces, p.WellFormed)
    (hSmall : bitOffs.toNat + totalBits pieces < 2 ^ 32) :
    ∃ dropped kept, pieces = dropped ++ kept ∧
      (offsetPieces offs bitOffs pieces).map LocationPiece.implicitPointer =
        kept.map (fun p => p.implicitPointer + 1) ∧
      (offs.toNat < bitOffs.toNat → dropped = []) := by
  refine offset_rounds (fun _ => ⟨[], [], rfl, rfl, fun _ => rfl⟩)
    (fun bitOffs p pieces hp hEnd hTotal hRest => ?_)
    hWell hSmall
  obtain ⟨dropped, kept, hPieces, hPointers, hAll⟩ := hRest
  rw [hEnd] at hAll
  rw [offsetPieces_cons hp (by omega)]
  split
  · rename_i hKept
    have hNone := hAll hKept
    subst hNone
    refine ⟨[], p :: kept, ?_, ?_, fun _ => rfl⟩
    · rw [hPieces, List.nil_append, List.nil_append]
    · rw [List.map_cons, List.map_cons, hPointers,
        (without_remains hp (skip_toNat hKept).2).pointer]
  · refine ⟨p :: dropped, kept, ?_, hPointers, fun hLt => ?_⟩
    · rw [hPieces, List.cons_append]
    · omega

/-! ## The operation -/

variable {data : List UInt8} {s u v : State Frame}

/-- What `OP_TCF_offset` starts with. -/
def settle : Vm Frame Unit := do
  let s ← get
  if s.regDef.isSome ∨ s.valueAddr.isSome then addPiece

/-- What `OP_TCF_offset` does then. -/
def offsetSettled (data : List UInt8) : Vm Frame Unit := do
  let pieces := (← get).eval.pieces
  if pieces ≠ [] then do
    let offs ← readU4leb128 data
    let pieces := offsetPieces (offs * 8) 0 pieces
    modifyEval fun e => { e with pieces }
    if pieces = [] then raise (invDwarf "Invalid size of implicit value")
  else do
    checkStack 1
    setStkAt 1 ((← stkAt 1) + (← readU8leb128 data))
    modify fun s => { s with implicitPointer := s.implicitPointer + 1 }

theorem execute_settled (hSettle : settle s = .ok ((), u)) :
    execute env data Op.tcfOffset s = offsetSettled data u := by
  have hExecute : execute env data Op.tcfOffset = (get >>= fun s =>
    if s.regDef.isSome ∨ s.valueAddr.isSome then addPiece >>= fun _ => offsetSettled data
    else offsetSettled data) := rfl
  unfold settle at hSettle
  rw [bind_get] at hSettle
  rw [hExecute, bind_get]
  split at hSettle
  · rename_i hPlace
    rw [if_pos hPlace, bind_of_ok hSettle]
  · rename_i hPlace
    cases hSettle
    rw [if_neg hPlace]

/-- `OP_TCF_offset` where there are pieces. -/
theorem execute_offset (hSettle : settle s = .ok ((), u)) (hSome : u.eval.pieces ≠ [])
    {n : BitVec 32} (hRead : readU4leb128 data u = .ok (n, v)) :
    execute env data Op.tcfOffset s =
      if offsetPieces (n * 8) 0 u.eval.pieces = [] then
        .error (.raise (invDwarf "Invalid size of implicit value"))
      else .ok ((), { v with
        eval := { v.eval with pieces := offsetPieces (n * 8) 0 u.eval.pieces } }) := by
  rw [execute_settled hSettle]
  unfold offsetSettled
  rw [bind_get]
  rw [if_pos hSome, bind_of_ok hRead]
  refine (bind_of_ok (a := ()) rfl).trans ?_
  split <;> rfl

/-- Where the pieces hold less than 2^32 bits and the offset is before their end, `OP_TCF_offset`
leaves pieces with the bits behind the offset, and one more pointer has to be followed to each of
them. An offset at their end is an error. -/
theorem offset_takes_suffix (env : Env Frame) (hSettle : settle s = .ok ((), u))
    (hSome : u.eval.pieces ≠ []) (hWell : ∀ p ∈ u.eval.pieces, p.WellFormed)
    (hTotal : totalBits u.eval.pieces < 2 ^ 32) {n : BitVec 32}
    (hRead : readU4leb128 data u = .ok (n, v)) (hOffs : n.toNat < 2 ^ 29) :
    (8 * n.toNat < totalBits u.eval.pieces → ∃ pieces dropped kept,
      execute env data Op.tcfOffset s = .ok ((), { v with eval := { v.eval with pieces } }) ∧
      (∀ frame big, pieces.flatMap (contents env frame big) =
        (u.eval.pieces.flatMap (contents env frame big)).drop (8 * n.toNat)) ∧
      u.eval.pieces = dropped ++ kept ∧
      pieces.map LocationPiece.implicitPointer = kept.map (fun p => p.implicitPointer + 1) ∧
      ∀ p ∈ pieces, p.WellFormed) ∧
    (8 * n.toNat = totalBits u.eval.pieces → execute env data Op.tcfOffset s =
      .error (.raise (invDwarf "Invalid size of implicit value"))) := by
  have hNat : (n * 8).toNat = 8 * n.toNat := by
    rw [BitVec.toNat_mul]
    show n.toNat * 8 % 2 ^ 32 = _
    omega
  have hZero : (0 : BitVec 32).toNat = 0 := rfl
  have hSmall : (0 : BitVec 32).toNat + totalBits u.eval.pieces < 2 ^ 32 := by
    rw [hZero]
    omega
  have hContents (frame : Frame) (big : Bool) :
      (offsetPieces (n * 8) 0 u.eval.pieces).flatMap (contents env frame big) =
        (u.eval.pieces.flatMap (contents env frame big)).drop (8 * n.toNat) := by
    rw [offsetPieces_contents hWell hSmall, hNat, hZero, Nat.sub_zero]
  rw [execute_offset hSettle hSome hRead]
  constructor
  · intro hLt
    obtain ⟨dropped, kept, hPieces, hPointers, -⟩ :=
      offsetPieces_pointers (n * 8) hWell hSmall
    refine ⟨offsetPieces (n * 8) 0 u.eval.pieces, dropped, kept, if_neg ?_, hContents, hPieces,
      hPointers, mem_offsetPieces hWell hSmall⟩
    intro hNil
    have hLength := congrArg List.length (hContents u.eval.stackFrame false)
    rw [hNil, List.flatMap_nil, List.length_drop, length_flatMap_contents, List.length_nil]
      at hLength
    omega
  · intro hEq
    exact if_pos (offsetPieces_end hWell hSmall (by omega))

end

theorem wellFormed_of_value {p : LocationPiece} {value : List UInt8} (hReg : p.reg = none)
    (hValue : p.value = some value) (hWidth : p.bitOffs.toNat + p.bitCount + 7 < 2 ^ 32)
    (hInside : p.bitOffs.toNat + p.bitCount ≤ 8 * p.size) : p.WellFormed := by
  refine ⟨hWidth, fun _ => hInside, fun reg h => ?_, fun _ h => ?_⟩
  · rw [hReg] at h
    cases h
  · rw [hValue] at h
    cases h

/-- The operand of an `OP_TCF_offset` is about to be read; there are these pieces. -/
def State.atOffset (data : List UInt8) (pieces : List LocationPiece) : State Unit :=
  ⟨⟨(), [], 0, 1, data.length, [], [], 0, 0, pieces⟩, none, none, 0, []⟩

/-- Twelve bits and two bytes. -/
def mixedPieces : List LocationPiece :=
  [{ LocationPiece.zero with value := some [0xab, 0x0c], size := 2, bitSize := 12 },
    { LocationPiece.zero with value := some [0x34, 0x56], size := 2 }]

/-- The first byte is cut off in the first piece. -/
theorem offset_takes_suffix_mixed : ∃ pieces dropped kept,
    execute (bareEnv false) [Op.tcfOffset, 1] Op.tcfOffset
        (.atOffset [Op.tcfOffset, 1] mixedPieces) =
      .ok ((), { State.atOffset [Op.tcfOffset, 1] pieces with
        eval := { (State.atOffset [Op.tcfOffset, 1] pieces).eval with codePos := 2 } }) ∧
    (∀ frame big, pieces.flatMap (contents (bareEnv false) frame big) =
      (mixedPieces.flatMap (contents (bareEnv false) frame big)).drop (8 * 1)) ∧
    mixedPieces = dropped ++ kept ∧
    pieces.map LocationPiece.implicitPointer = kept.map (fun p => p.implicitPointer + 1) ∧
    ∀ p ∈ pieces, p.WellFormed := by
  have hWell : ∀ p ∈ mixedPieces, p.WellFormed := by
    intro p hp
    rcases List.mem_cons.1 hp with rfl | hp
    · exact wellFormed_of_value rfl rfl (by decide) (by decide)
    · rcases List.mem_cons.1 hp with rfl | hp
      · exact wellFormed_of_value rfl rfl (by decide) (by decide)
      · cases hp
  have hRead : readU4leb128 [Op.tcfOffset, 1] (.atOffset [Op.tcfOffset, 1] mixedPieces) =
      .ok (1, { State.atOffset [Op.tcfOffset, 1] mixedPieces with
        eval := { (State.atOffset [Op.tcfOffset, 1] mixedPieces).eval with codePos := 2 } }) := rfl
  exact (offset_takes_suffix (bareEnv false) (s := .atOffset [Op.tcfOffset, 1] mixedPieces) rfl
    (by decide) hWell (by decide) hRead (by decide)).1 (by decide)

/-- The offset of the end of the only piece. -/
theorem offset_at_end :
    (∀ p ∈ [{ LocationPiece.zero with value := some [0x12], size := 1 }], p.WellFormed) ∧
    8 * 1 ≤ totalBits [{ LocationPiece.zero with value := some [0x12], size := 1 }] ∧
    execute (bareEnv false) [Op.tcfOffset, 1] Op.tcfOffset (.atOffset [Op.tcfOffset, 1]
        [{ LocationPiece.zero with value := some [0x12], size := 1 }]) =
      .error (.raise (invDwarf "Invalid size of implicit value")) := by
  refine ⟨?_, by decide, rfl⟩
  intro p hp
  rcases List.mem_cons.1 hp with rfl | hp
  · exact wellFormed_of_value rfl rfl (by decide) (by decide)
  · cases hp

end TcfAgent.VmEval
