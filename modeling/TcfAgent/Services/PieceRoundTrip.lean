import TcfAgent.Services.LocationPieces
import TcfAgent.Lib.Fallible

/-!
# Location pieces are read as they were written

What is written to pieces that do not overlap is read from them again, and every other bit of the
registers and of the memory stays as it is, as long as no count of bits wraps.

Main results:

* `scatter_spec`, `gather_spec` — what the loops over the bits of a piece do;
* `writePieces_spec` — what is written to a list of pieces;
* `readPieces_spec`  — what is read from it;
* `roundTrip_iff`    — for which pieces all this holds.
-/

namespace TcfAgent.Pieces

open TcfAgent.Lib TcfAgent.Location
open TcfAgent.VmEval (RegisterDefinition LocationPiece inOrder)

/-! ## The loops over the bits -/

section

variable {big : Bool} {bf bf' pbf pbf' : List UInt8} {n i off off' : Nat}

/-- The bits from `i` on, so many of them, lie in the buffer. -/
def Inside (pbf : List UInt8) (i n : Nat) : Prop := ∀ j, i ≤ j → j < i + n → j / 8 < pbf.length

theorem Inside.tail (h : Inside pbf i (n + 1)) (hLength : pbf'.length = pbf.length) :
    Inside pbf' (i + 1) n := by
  intro j hj hj'
  rw [hLength]
  exact h j (by omega) (by omega)

theorem inBuffer_lt (h : inBuffer bf i = .ok ()) : i / 8 < bf.length := by
  unfold inBuffer at h
  split at h
  · assumption
  · cases h

theorem inBuffer_ok (h : i / 8 < bf.length) : inBuffer bf i = .ok () := if_pos h

theorem unsigned_of_lt (h : n < 2 ^ 32) : unsigned n = n := Nat.mod_eq_of_lt h

theorem scatter_spec (hIn : Inside pbf i n) (hBf : off + n ≤ 8 * bf.length)
    (hSmall : off + n < 2 ^ 32) :
    ∃ pbf', scatter big bf n i off pbf = .ok (pbf', off + n) ∧ pbf'.length = pbf.length ∧
      ∀ j, bitAt big pbf' j =
        if i ≤ j ∧ j < i + n then bitAt big bf (off + (j - i)) else bitAt big pbf j := by
  induction n generalizing i off pbf with
  | zero =>
    refine ⟨pbf, rfl, rfl, fun j => ?_⟩
    rw [if_neg (by omega)]
  | succ n ih =>
    have hHere : i / 8 < pbf.length := hIn i (Nat.le_refl i) (by omega)
    have hNext : Inside (putAt big pbf i (bitAt big bf off)) (i + 1) n := hIn.tail length_putAt
    have hOff : off + 1 + n ≤ 8 * bf.length ∧ off + 1 + n < 2 ^ 32 := by omega
    obtain ⟨pbf', hRun, hLength, hBits⟩ := ih hNext hOff.1 hOff.2
    refine ⟨pbf', ?_, hLength.trans length_putAt, fun j => ?_⟩
    · rw [scatter, if_neg (by omega), inBuffer_ok hHere, unsigned_of_lt (by omega)]
      show scatter big bf n (i + 1) (off + 1) _ = _
      rw [hRun, Nat.add_right_comm]
      rfl
    · rw [hBits, bitAt_putAt hHere]
      by_cases hSame : j = i
      · subst hSame
        rw [if_neg (by omega), if_pos rfl, if_pos (by omega), Nat.sub_self, Nat.add_zero]
      · by_cases hLater : i + 1 ≤ j ∧ j < i + 1 + n
        · have hIndex : off + 1 + (j - (i + 1)) = off + (j - i) := by omega
          rw [if_pos hLater, if_pos (by omega), hIndex]
        · rw [if_neg hLater, if_neg hSame, if_neg (by omega)]

/-- `|=` puts a bit that is not there yet. -/
theorem gather_spec (hIn : Inside pbf i n) (hBf : off + n ≤ 8 * bf.length)
    (hSmall : off + n < 2 ^ 32) (hZero : ∀ j, off ≤ j → bitAt big bf j = false) :
    ∃ bf', gather big pbf n i off bf = .ok (bf', off + n) ∧ bf'.length = bf.length ∧
      ∀ j, bitAt big bf' j =
        if off ≤ j ∧ j < off + n then bitAt big pbf (i + (j - off)) else bitAt big bf j := by
  induction n generalizing i off bf with
  | zero =>
    refine ⟨bf, rfl, rfl, fun j => ?_⟩
    rw [if_neg (by omega)]
  | succ n ih =>
    have hHere : i / 8 < pbf.length := hIn i (Nat.le_refl i) (by omega)
    have hThere : off / 8 < bf.length := by omega
    -- the bit is put in either case
    have hPut : ∀ j, bitAt big (if bitAt big pbf i then putAt big bf off true else bf) j =
        if j = off then bitAt big pbf i else bitAt big bf j := by
      intro j
      cases hBit : bitAt big pbf i with
      | true => rw [if_pos rfl, bitAt_putAt hThere]
      | false =>
        rw [if_neg Bool.false_ne_true]
        by_cases hSame : j = off
        · rw [if_pos hSame, hSame, hZero off (Nat.le_refl off)]
        · rw [if_neg hSame]
    have hLengthPut : (if bitAt big pbf i then putAt big bf off true else bf).length =
        bf.length := by
      split
      · exact length_putAt
      · rfl
    have hZeroPut : ∀ j, off + 1 ≤ j →
        bitAt big (if bitAt big pbf i then putAt big bf off true else bf) j = false := by
      intro j hj
      rw [hPut, if_neg (by omega), hZero j (by omega)]
    obtain ⟨bf', hRun, hLength, hBits⟩ :=
      ih (hIn.tail rfl) (by omega) (by omega) hZeroPut
    refine ⟨bf', ?_, hLength.trans hLengthPut, fun j => ?_⟩
    · have hEnd : off + (n + 1) = off + 1 + n := by omega
      rw [gather, inBuffer_ok hHere, unsigned_of_lt (by omega), inBuffer_ok hThere, hEnd, ← hRun]
      show (if bitAt big pbf i =
        true then gather big pbf n (i + 1) (off + 1) (putAt big bf off true)
        else gather big pbf n (i + 1) (off + 1) bf) = _
      split <;> rfl
    · rw [hBits, hPut]
      by_cases hSame : j = off
      · subst hSame
        rw [if_neg (by omega), if_pos rfl, if_pos (by omega), Nat.sub_self, Nat.add_zero]
      · by_cases hLater : off + 1 ≤ j ∧ j < off + 1 + n
        · have hIndex : i + 1 + (j - (off + 1)) = i + (j - off) := by omega
          rw [if_pos hLater, if_pos (by omega), hIndex]
        · rw [if_neg hLater, if_neg hSame, if_neg (by omega)]

end

/-! ## Pieces -/

/-- The bits of a piece, in order. -/
def piecePlaces (big : Bool) (p : LocationPiece) : List Place :=
  (List.range (bitCount p)).map fun k => place big p (p.bitOffs.toNat + k)

def places (big : Bool) (pieces : List LocationPiece) : List Place :=
  pieces.flatMap (piecePlaces big)

/-- The number of bits. -/
def total (pieces : List LocationPiece) : Nat := (pieces.map bitCount).sum

/-- As many bytes as the piece needs. -/
def extent (p : LocationPiece) : Nat :=
  if p.size ≠ 0 then p.size else (p.bitOffs.toNat + p.bitSize.toNat + 7) / 8

/-- A piece that can be read and written: so many bytes from the first bit on, or some bits of the
bytes it has; a register is at least as large. -/
structure WellFormed (p : LocationPiece) : Prop where
  present : p.optimizedAway = false
  direct  : p.implicitPointer = 0
  place   : p.reg = none → p.value = none
  bytes   : p.bitSize = 0 → p.bitOffs = 0
  bits    : p.bitSize ≠ 0 → p.size ≠ 0 → p.bitOffs.toNat + p.bitSize.toNat ≤ 8 * p.size
  large   : ∀ r, p.reg = some r → extent p ≤ r.size

/-- The piece lies in its buffer, and counting its bits does not wrap. -/
def Fits (p : LocationPiece) : Prop :=
  0 < bitCount p → p.bitOffs.toNat + bitCount p < 2 ^ 32 ∧
    (p.reg = none → p.bitOffs.toNat + bitCount p ≤ 8 * pieceSize p)

section

variable {refuse : Refusals} {big : Bool} {p : LocationPiece} {pieces : List LocationPiece}
  {s s' s'' : Target} {bf bf' pbf pbf' : List UInt8} {n i off off' k : Nat} {pl : Place}

theorem unsigned_le (n : Nat) : unsigned n ≤ n := Nat.mod_le n _

theorem pieceSize_le (p : LocationPiece) : pieceSize p ≤ extent p := by
  unfold pieceSize extent
  split
  · exact unsigned_le _
  · exact Nat.div_le_div_right (unsigned_le _)

theorem WellFormed.isLarge (h : WellFormed p) : Large p := fun r hReg =>
  (pieceSize_le p).trans (h.large r hReg)

/-- A piece has no more bits than its bytes. -/
theorem WellFormed.bits_le (h : WellFormed p) :
    p.bitOffs.toNat + bitCount p ≤ 8 * extent p := by
  unfold bitCount extent
  by_cases hBits : p.bitSize = 0
  · have hOffs : p.bitOffs.toNat = 0 := by
      rw [h.bytes hBits]
      rfl
    by_cases hSize : p.size = 0
    · simp [hBits, hSize, hOffs]
    · simp [hBits, hSize, hOffs]
      omega
  · by_cases hSize : p.size = 0
    · simp only [hBits, hSize, ne_eq, not_false_eq_true, not_true_eq_false, if_true, if_false]
      omega
    · have hIn := h.bits hBits hSize
      simpa only [hBits, hSize, ne_eq, not_false_eq_true, if_true] using hIn

/-- The bits of a piece lie in its buffer. -/
theorem Fits.inside (h : Fits p) (hWell : WellFormed p) (hLength : pbf.length = bufferLength p) :
    Inside pbf p.bitOffs.toNat (bitCount p) := by
  intro j hj hj'
  have hBits := hWell.bits_le
  obtain ⟨-, hMemory⟩ := h (by omega)
  unfold bufferLength at hLength
  rcases hReg : p.reg with - | r
  · rw [hReg] at hLength
    have hIn := hMemory hReg
    simp only at hLength
    omega
  · rw [hReg] at hLength
    have hLarge := hWell.large r hReg
    simp only at hLength
    omega

theorem Fits.turns (h : Fits p) (hCount : bitCount p < 2 ^ 32) : turns p = bitCount p := by
  have hBits : pieceBits p = bitCount p := unsigned_of_lt hCount
  unfold Pieces.turns
  rw [hBits]
  by_cases hZero : bitCount p = 0
  · rw [hZero, Nat.add_zero]
    exact Nat.sub_eq_zero_of_le (unsigned_le _)
  · rw [unsigned_of_lt (h (by omega)).1, Nat.add_sub_cancel_left]

theorem mem_piecePlaces : pl ∈ piecePlaces big p ↔
    ∃ i, p.bitOffs.toNat ≤ i ∧ i < p.bitOffs.toNat + bitCount p ∧ place big p i = pl := by
  unfold piecePlaces
  simp only [List.mem_map, List.mem_range]
  constructor
  · rintro ⟨k, hk, rfl⟩
    exact ⟨_, by omega, by omega, rfl⟩
  · rintro ⟨i, hLe, hLt, rfl⟩
    exact ⟨i - p.bitOffs.toNat, by omega, by rw [Nat.add_sub_cancel' hLe]⟩

theorem length_piecePlaces : (piecePlaces big p).length = bitCount p := by
  rw [piecePlaces, List.length_map, List.length_range]

theorem length_places : (places big pieces).length = total pieces := by
  rw [places, List.length_flatMap, total]
  simp only [length_piecePlaces]

theorem getElem?_piecePlaces (h : (piecePlaces big p)[k]? = some pl) :
    k < bitCount p ∧ place big p (p.bitOffs.toNat + k) = pl := by
  have hk : k < bitCount p := by
    have hLt := (List.getElem?_eq_some_iff.1 h).1
    rwa [length_piecePlaces] at hLt
  rw [piecePlaces, List.getElem?_map, List.getElem?_range hk] at h
  exact ⟨hk, Option.some.inj h⟩

/-- The bits of a buffer, from `off` on, stand in these places, and every other bit is as it
was. -/
structure Written (big : Bool) (bf : List UInt8) (off : Nat) (pls : List Place) (s s' : Target) :
    Prop where
  bits  : ∀ k pl, pls[k]? = some pl → s'.bit pl = bitAt big bf (off + k)
  frame : ∀ pl, pl ∉ pls → s'.bit pl = s.bit pl

theorem Written.append {ps qs : List Place} (h : Written big bf off ps s s')
    (h' : Written big bf (off + ps.length) qs s' s'') (hApart : ∀ pl ∈ ps, pl ∉ qs) :
    Written big bf off (ps ++ qs) s s'' := by
  refine ⟨fun k pl hk => ?_, fun pl hpl => ?_⟩
  · by_cases hFirst : k < ps.length
    · rw [List.getElem?_append_left hFirst] at hk
      rw [h'.frame pl (hApart pl (List.mem_of_getElem? hk)), h.bits k pl hk]
    · rw [List.getElem?_append_right (by omega)] at hk
      have hIndex : off + ps.length + (k - ps.length) = off + k := by omega
      rw [h'.bits _ pl hk, hIndex]
  · rw [List.mem_append, not_or] at hpl
    rw [h'.frame pl hpl.2, h.frame pl hpl.1]

/-- What the buffer of a piece, once it has taken its bits, does to the target. -/
theorem written_stored (hLength : pbf.length = bufferLength p)
    (hBuffer : pbf'.length = bufferLength p)
    (hIn : Inside pbf p.bitOffs.toNat (bitCount p))
    (hPbf : ∀ i, i / 8 < bufferLength p → bitAt big pbf i = s.bit (place big p i))
    (hBits : ∀ j, bitAt big pbf' j =
      if p.bitOffs.toNat ≤ j ∧ j < p.bitOffs.toNat + bitCount p then
        bitAt big bf (off + (j - p.bitOffs.toNat)) else bitAt big pbf j) :
    Written big bf off (piecePlaces big p) s (stored big p pbf' s) := by
  refine ⟨fun k pl hk => ?_, fun pl hpl => ?_⟩
  · obtain ⟨hLt, rfl⟩ := getElem?_piecePlaces hk
    have hByte : (p.bitOffs.toNat + k) / 8 < bufferLength p := by
      rw [← hLength]
      exact hIn _ (by omega) (by omega)
    rw [stored_bit hBuffer hByte, hBits, if_pos (by omega), Nat.add_sub_cancel_left]
  · by_cases hSome : ∃ i, i / 8 < bufferLength p ∧ place big p i = pl
    · obtain ⟨i, hByte, rfl⟩ := hSome
      have hOut : ¬ (p.bitOffs.toNat ≤ i ∧ i < p.bitOffs.toNat + bitCount p) := by
        rintro ⟨hLe, hLt⟩
        exact hpl (mem_piecePlaces.2 ⟨i, hLe, hLt, rfl⟩)
      rw [stored_bit hBuffer hByte, hBits, if_neg hOut, hPbf i hByte]
    · refine stored_other hBuffer fun i hByte hPlace => hSome ⟨i, hByte, hPlace⟩

theorem checkPiece_ok (hWell : WellFormed p) (verb : String) : checkPiece verb p = .ok () := by
  rw [checkPiece, hWell.present, hWell.direct]
  rfl

theorem total_cons (p : LocationPiece) (pieces : List LocationPiece) :
    total (p :: pieces) = bitCount p + total pieces := by
  rw [total, total, List.map_cons, List.sum_cons]

theorem places_cons (big : Bool) (p : LocationPiece) (pieces : List LocationPiece) :
    places big (p :: pieces) = piecePlaces big p ++ places big pieces := List.flatMap_cons

/-- Some access to one of the pieces is refused. -/
def Refused (refuse : Refusals) (pieces : List LocationPiece) : Prop :=
  ∃ p ∈ pieces, refuse (loading p) ≠ none ∨ refuse (storing p) ≠ none

theorem Refused.tail (h : Refused refuse pieces) : Refused refuse (p :: pieces) := by
  obtain ⟨q, hq, hRefuse⟩ := h
  exact ⟨q, List.mem_cons_of_mem p hq, hRefuse⟩

/-- What is written to a list of pieces. -/
theorem writePieces_spec (hWell : ∀ p ∈ pieces, WellFormed p) (hFits : ∀ p ∈ pieces, Fits p)
    (hNodup : (places big pieces).Nodup) (hBf : off + total pieces ≤ 8 * bf.length)
    (hSmall : off + total pieces < 2 ^ 32) :
    (∃ s', writePieces refuse big bf pieces off s = .ok s' ∧
        Written big bf off (places big pieces) s s' ∧ ∀ p ∈ pieces, refuse (loading p) = none) ∨
      ∃ f, writePieces refuse big bf pieces off s = raised f ∧ Refused refuse pieces := by
  induction pieces generalizing off s with
  | nil =>
    refine .inl ⟨s, rfl, ⟨fun k pl hk => ?_, fun _ _ => rfl⟩, fun p hp => ?_⟩
    · rw [places, List.flatMap_nil, List.getElem?_nil] at hk
      cases hk
    · cases hp
  | cons p pieces ih =>
    have hPiece := hWell p List.mem_cons_self
    have hPieceFits := hFits p List.mem_cons_self
    rw [total_cons] at hBf hSmall
    rw [places_cons] at hNodup
    obtain ⟨-, hRestNodup, hApart⟩ := List.nodup_append.1 hNodup
    have hTurns := hPieceFits.turns (by omega)
    have hIn : Inside (buffer big p s) p.bitOffs.toNat (bitCount p) :=
      hPieceFits.inside hPiece length_buffer
    have hOff : off + bitCount p ≤ 8 * bf.length ∧ off + bitCount p < 2 ^ 32 := by omega
    obtain ⟨pbf', hScatter, hLength, hBits⟩ := scatter_spec hIn hOff.1 hOff.2
    have hBuffer : pbf'.length = bufferLength p := hLength.trans length_buffer
    have hConst : ¬ (p.reg = none ∧ p.value ≠ none) := fun h => h.2 (hPiece.place h.1)
    have hStep : writePieces refuse big bf (p :: pieces) off s =
        (allowed refuse (loading p)).bind fun _ => (allowed refuse (storing p)).bind fun _ =>
          writePieces refuse big bf pieces (off + bitCount p) (stored big p pbf' s) := by
      rw [writePieces, checkPiece_ok hPiece, loadPiece_eq hPiece.isLarge, if_neg hConst]
      rcases allowed refuse (loading p) with e | u
      · rfl
      · show (scatter big bf (turns p) p.bitOffs.toNat off (buffer big p s)).bind (fun r =>
          (storePiece refuse big p r.1 s).bind (writePieces refuse big bf pieces r.2)) = _
        rw [hTurns, hScatter]
        show (storePiece refuse big p pbf' s).bind
          (writePieces refuse big bf pieces (off + bitCount p)) = _
        rw [storePiece_eq hPiece.isLarge hBuffer]
        rcases allowed refuse (storing p) with e | u <;> rfl
    rw [hStep]
    -- the target refuses to give the old bytes, or to take the new ones
    rcases hLoad : refuse (loading p) with - | e
    · rcases hStore : refuse (storing p) with - | e
      · rw [allowed_none hLoad, allowed_none hStore]
        rcases @ih (stored big p pbf' s) (off + bitCount p)
            (fun q hq => hWell q (List.mem_cons_of_mem p hq))
            (fun q hq => hFits q (List.mem_cons_of_mem p hq)) hRestNodup (by omega) (by omega) with
          ⟨s', hRun, hWritten, hAllowed⟩ | ⟨f, hRun, hRefused⟩
        · refine .inl ⟨s', hRun, ?_, ?_⟩
          · rw [places_cons]
            refine (written_stored length_buffer hBuffer hIn (fun i => bitAt_buffer) hBits).append
              ?_ fun pl hpl hpl' => hApart pl hpl pl hpl' rfl
            rwa [length_piecePlaces]
          · intro q hq
            rcases List.mem_cons.1 hq with rfl | hq
            · exact hLoad
            · exact hAllowed q hq
        · exact .inr ⟨f, hRun, hRefused.tail⟩
      · rw [allowed_none hLoad]
        refine .inr ⟨exception e, ?_, p, List.mem_cons_self, .inr (by simp [hStore])⟩
        rw [allowed, hStore]
        rfl
    · refine .inr ⟨exception e, ?_, p, List.mem_cons_self, .inl (by simp [hLoad])⟩
      rw [allowed, hLoad]
      rfl

theorem sourcePiece_eq (h : p.reg = none → p.value = none) :
    sourcePiece refuse big p s = loadPiece refuse big p s := by
  unfold sourcePiece
  split
  · next hReg hValue =>
    rw [h hReg] at hValue
    cases hValue
  · rfl

/-- What is read from a list of pieces. -/
theorem readPieces_spec (hWell : ∀ p ∈ pieces, WellFormed p) (hFits : ∀ p ∈ pieces, Fits p)
    (hAllowed : ∀ p ∈ pieces, refuse (loading p) = none) (hBf : off + total pieces ≤ 8 * bf.length)
    (hSmall : off + total pieces < 2 ^ 32) (hZero : ∀ j, off ≤ j → bitAt big bf j = false) :
    ∃ bf', readPieces refuse big s pieces off bf = .ok bf' ∧ bf'.length = bf.length ∧
      (∀ k pl, (places big pieces)[k]? = some pl → bitAt big bf' (off + k) = s.bit pl) ∧
      ∀ j, j < off ∨ off + total pieces ≤ j → bitAt big bf' j = bitAt big bf j := by
  induction pieces generalizing off bf with
  | nil =>
    refine ⟨bf, rfl, rfl, fun k pl hk => ?_, fun _ _ => rfl⟩
    rw [places, List.flatMap_nil, List.getElem?_nil] at hk
    cases hk
  | cons p pieces ih =>
    have hPiece := hWell p List.mem_cons_self
    have hPieceFits := hFits p List.mem_cons_self
    have hLoad := hAllowed p List.mem_cons_self
    rw [total_cons] at hBf hSmall ⊢
    rw [places_cons]
    have hTurns := hPieceFits.turns (by omega)
    have hIn : Inside (buffer big p s) p.bitOffs.toNat (bitCount p) :=
      hPieceFits.inside hPiece length_buffer
    have hOff : off + bitCount p ≤ 8 * bf.length ∧ off + bitCount p < 2 ^ 32 := by omega
    obtain ⟨bf₁, hGather, hLength, hBits⟩ := gather_spec hIn hOff.1 hOff.2 hZero
    have hZero' : ∀ j, off + bitCount p ≤ j → bitAt big bf₁ j = false := by
      intro j hj
      rw [hBits, if_neg (by omega), hZero j (by omega)]
    obtain ⟨bf', hRun, hLength', hPlaces, hOther⟩ :=
      @ih bf₁ (off + bitCount p) (fun q hq => hWell q (List.mem_cons_of_mem p hq))
        (fun q hq => hFits q (List.mem_cons_of_mem p hq))
        (fun q hq => hAllowed q (List.mem_cons_of_mem p hq)) (by omega) (by omega) hZero'
    refine ⟨bf', ?_, hLength'.trans hLength, fun k pl hk => ?_, fun j hj => ?_⟩
    · rw [readPieces, checkPiece_ok hPiece, sourcePiece_eq hPiece.place,
        loadPiece_eq hPiece.isLarge, allowed_none hLoad]
      show (gather big (buffer big p s) (turns p) p.bitOffs.toNat off bf).bind
        (fun r => readPieces refuse big s pieces r.2 r.1) = _
      rw [hTurns, hGather]
      exact hRun
    · by_cases hFirst : k < bitCount p
      · rw [List.getElem?_append_left (by rwa [length_piecePlaces])] at hk
        obtain ⟨-, rfl⟩ := getElem?_piecePlaces hk
        have hByte : (p.bitOffs.toNat + k) / 8 < bufferLength p :=
          (hIn _ (by omega) (by omega)).trans_eq length_buffer
        rw [hOther _ (by omega), hBits, if_pos (by omega), Nat.add_sub_cancel_left,
          bitAt_buffer hByte]
      · rw [List.getElem?_append_right (by rw [length_piecePlaces]; omega), length_piecePlaces]
          at hk
        have hIndex : off + bitCount p + (k - bitCount p) = off + k := by omega
        rw [← hPlaces _ pl hk, hIndex]
    · rw [hOther j (by omega), hBits, if_neg (by omega)]

end

/-! ## The round trip -/

/-- As many bytes as the bits fill. -/
def totalSize (pieces : List LocationPiece) : Nat := (total pieces + 7) / 8

/-- Where the bits start in a buffer of that size; what is left of it is padding. -/
def start (big : Bool) (pieces : List LocationPiece) : Nat :=
  if big then totalSize pieces * 8 - total pieces else 0

/-- The value with its padding bits cleared. -/
def IsPadded (big : Bool) (pieces : List LocationPiece) (value bytes : List UInt8) : Prop :=
  bytes.length = value.length ∧ ∀ i, bitAt big bytes i =
    (decide (start big pieces ≤ i ∧ i < start big pieces + total pieces) && bitAt big value i)

/-- What is written is read, every bit that is not of the pieces stays, and no access is out of a
buffer. -/
structure RoundTrip (big : Bool) (pieces : List LocationPiece) (refuse : Refusals) (s : Target)
    (value : List UInt8) : Prop where
  safe   : writeLocationPieces refuse big pieces value s ≠ .error .fault
  total  : (¬ ∃ a, refuse a ≠ none) → ∃ s', writeLocationPieces refuse big pieces value s = .ok s'
  reads  : ∀ s', writeLocationPieces refuse big pieces value s = .ok s' →
    ∃ bytes, readLocationPieces refuse big pieces s' = .ok bytes ∧ IsPadded big pieces value bytes
  frame  : ∀ s', writeLocationPieces refuse big pieces value s = .ok s' →
    ∀ pl, pl ∉ places big pieces → s'.bit pl = s.bit pl

/-- Counting the bits does not wrap, and each piece lies in its buffer. -/
structure AllFit (pieces : List LocationPiece) : Prop where
  count : total pieces + 7 < 2 ^ 32
  fits  : ∀ p ∈ pieces, Fits p

section

variable {refuse : Refusals} {big : Bool} {p : LocationPiece} {pieces : List LocationPiece}
  {s s' : Target} {value : List UInt8}

theorem bitCount_le (hMem : p ∈ pieces) : bitCount p ≤ total pieces :=
  List.single_le_sum (fun _ _ => Nat.zero_le _) _ (List.mem_map_of_mem hMem)

theorem bufferBits_eq (h : total pieces + 7 < 2 ^ 32) : bufferBits pieces = total pieces := by
  have hMap : pieces.map pieceBits = pieces.map bitCount :=
    List.map_congr_left fun p hp => unsigned_of_lt (by have := bitCount_le hp; omega)
  rw [bufferBits, hMap]
  exact unsigned_of_lt (by unfold total at h; omega)

theorem bufferSize_eq (h : total pieces + 7 < 2 ^ 32) : bufferSize pieces = totalSize pieces := by
  rw [bufferSize, bufferBits_eq h, unsigned_of_lt h, totalSize]

theorem start_eq (h : total pieces + 7 < 2 ^ 32) :
    unsigned (totalSize pieces * 8 + 2 ^ 32 - total pieces) =
      totalSize pieces * 8 - total pieces := by
  have hLe : total pieces ≤ totalSize pieces * 8 ∧ totalSize pieces * 8 < 2 ^ 32 := by
    unfold totalSize
    omega
  have hSum : totalSize pieces * 8 + 2 ^ 32 - total pieces =
      totalSize pieces * 8 - total pieces + 2 ^ 32 := by omega
  rw [hSum, unsigned, Nat.add_mod_right, Nat.mod_eq_of_lt (by omega)]

theorem start_le (big : Bool) (pieces : List LocationPiece) :
    start big pieces + total pieces ≤ 8 * totalSize pieces := by
  unfold start totalSize
  split <;> omega

theorem readLocationPieces_eq (h : total pieces + 7 < 2 ^ 32) :
    readLocationPieces refuse big pieces s = readPieces refuse big s pieces (start big pieces)
      (List.replicate (totalSize pieces) 0) := by
  rw [readLocationPieces, bufferSize_eq h, bufferBits_eq h, start_eq h, start]

theorem writeLocationPieces_eq (h : total pieces + 7 < 2 ^ 32)
    (hLength : value.length = totalSize pieces) :
    writeLocationPieces refuse big pieces value s =
      writePieces refuse big value pieces (start big pieces) s := by
  rw [writeLocationPieces, bufferSize_eq h, bufferBits_eq h, hLength, start_eq h, start]
  simp only [Nat.le_refl, and_true]

/-- Pieces that fit are read as they were written. -/
theorem AllFit.roundTrip (h : AllFit pieces) (hWell : ∀ p ∈ pieces, WellFormed p)
    (hNodup : (places big pieces).Nodup) (hLength : value.length = totalSize pieces) :
    RoundTrip big pieces refuse s value := by
  have hStart := start_le big pieces
  have hSmall : 8 * totalSize pieces < 2 ^ 32 := by
    have hCount := h.count
    unfold totalSize
    omega
  have hWrite : writeLocationPieces refuse big pieces value s =
      writePieces refuse big value pieces (start big pieces) s :=
    writeLocationPieces_eq h.count hLength
  have hRoom : start big pieces + total pieces ≤ 8 * value.length := by rwa [hLength]
  rcases @writePieces_spec refuse big pieces s value (start big pieces) hWell h.fits hNodup hRoom
      (by omega) with ⟨s₁, hRun, hWritten, hAllowed⟩ | ⟨f, hRun, hRefused⟩
  · rw [← hWrite] at hRun
    have hOnly : ∀ s', writeLocationPieces refuse big pieces value s = .ok s' → s' = s₁ := by
      intro s' hRun'
      rw [hRun] at hRun'
      exact (Except.ok.inj hRun').symm
    refine ⟨?_, fun _ => ⟨s₁, hRun⟩, fun s' hRun' => ?_, fun s' hRun' pl hpl => ?_⟩
    · rw [hRun]
      simp
    · rw [hOnly s' hRun', readLocationPieces_eq h.count]
      obtain ⟨bytes, hRead, hBytes, hBits, hOther⟩ :=
        @readPieces_spec refuse big pieces s₁ (List.replicate (totalSize pieces) 0)
          (start big pieces) hWell h.fits hAllowed (by rwa [List.length_replicate]) (by omega)
          (fun j _ => bitAt_replicate _)
      refine ⟨bytes, hRead, by rw [hBytes, List.length_replicate, hLength], fun i => ?_⟩
      by_cases hIn : start big pieces ≤ i ∧ i < start big pieces + total pieces
      · obtain ⟨k, rfl⟩ := Nat.exists_eq_add_of_le hIn.1
        have hk : k < (places big pieces).length := by
          rw [length_places]
          omega
        have hPlace := List.getElem?_eq_getElem hk
        rw [hBits k _ hPlace, hWritten.bits k _ hPlace, decide_eq_true hIn, Bool.true_and]
      · rw [hOther i (by omega), bitAt_replicate, decide_eq_false hIn, Bool.false_and]
    · rw [hOnly s' hRun']
      exact hWritten.frame pl hpl
  · rw [← hWrite] at hRun
    refine ⟨?_, fun hNone => ?_, fun s' hRun' => ?_, fun s' hRun' => ?_⟩
    · rw [hRun, raised]
      simp
    · obtain ⟨p, -, hRefuse | hRefuse⟩ := hRefused
      · exact absurd ⟨_, hRefuse⟩ hNone
      · exact absurd ⟨_, hRefuse⟩ hNone
    · rw [hRun] at hRun'
      cases hRun'
    · rw [hRun] at hRun'
      cases hRun'

end

/-! ## No other pieces -/

section

variable {refuse : Refusals} {big : Bool} {p : LocationPiece} {pieces : List LocationPiece}
  {s : Target} {bf bf' pbf : List UInt8} {r : List UInt8 × Nat} {n i off : Nat}

theorem gather_length (h : gather big pbf n i off bf = .ok r) : r.1.length = bf.length := by
  induction n generalizing i off bf with
  | zero =>
    rw [gather] at h
    rw [← Except.ok.inj h]
  | succ n ih =>
    rw [gather] at h
    obtain ⟨-, -, h⟩ := Fallible.bind_eq_ok h
    split at h
    · obtain ⟨-, -, h⟩ := Fallible.bind_eq_ok h
      exact (ih h).trans length_putAt
    · exact ih h

/-- A loop that ends stays in the buffer of the piece, and puts bits where it should. -/
theorem gather_ok (h : gather big pbf n i off bf = .ok r) (hSmall : off + n < 2 ^ 32) :
    Inside pbf i n ∧ r.2 = off + n ∧
      ∀ j, bitAt big r.1 j = true → bitAt big bf j = true ∨ off ≤ j ∧ j < off + n := by
  induction n generalizing i off bf with
  | zero =>
    rw [gather] at h
    rw [← Except.ok.inj h]
    exact ⟨fun j hj hj' => by omega, rfl, fun j hj => .inl hj⟩
  | succ n ih =>
    rw [gather, unsigned_of_lt (by omega)] at h
    obtain ⟨_, hBuffer, h⟩ := Fallible.bind_eq_ok h
    have hHere : i / 8 < pbf.length := inBuffer_lt hBuffer
    have hTail : Inside pbf (i + 1) n → Inside pbf i (n + 1) := by
      intro hIn j hj hj'
      by_cases hSame : j = i
      · rwa [hSame]
      · exact hIn j (by omega) (by omega)
    split at h
    · obtain ⟨_, hThere, h⟩ := Fallible.bind_eq_ok h
      obtain ⟨hIn, hEnd, hBits⟩ := ih h (by omega)
      refine ⟨hTail hIn, by omega, fun j hj => ?_⟩
      rcases hBits j hj with hOld | hNew
      · rw [bitAt_putAt (inBuffer_lt hThere)] at hOld
        by_cases hSame : j = off
        · exact .inr (by omega)
        · rw [if_neg hSame] at hOld
          exact .inl hOld
      · exact .inr (by omega)
    · obtain ⟨hIn, hEnd, hBits⟩ := ih h (by omega)
      refine ⟨hTail hIn, by omega, fun j hj => (hBits j hj).imp_right ?_⟩
      intro hNew
      omega

theorem readPieces_cons (h : readPieces refuse big s (p :: pieces) off bf = .ok bf') :
    ∃ pbf r, sourcePiece refuse big p s = .ok pbf ∧
      gather big pbf (turns p) p.bitOffs.toNat off bf = .ok r ∧
      readPieces refuse big s pieces r.2 r.1 = .ok bf' := by
  rw [readPieces] at h
  obtain ⟨-, -, h⟩ := Fallible.bind_eq_ok h
  obtain ⟨pbf, hSource, h⟩ := Fallible.bind_eq_ok h
  obtain ⟨r, hGather, h⟩ := Fallible.bind_eq_ok h
  exact ⟨pbf, r, hSource, hGather, h⟩

theorem readPieces_length (h : readPieces refuse big s pieces off bf = .ok bf') :
    bf'.length = bf.length := by
  induction pieces generalizing off bf with
  | nil =>
    rw [readPieces] at h
    rw [← Except.ok.inj h]
  | cons p pieces ih =>
    obtain ⟨pbf, r, -, hGather, hRest⟩ := readPieces_cons h
    exact (ih hRest).trans (gather_length hGather)

/-- How many bits are moved. -/
def moved (pieces : List LocationPiece) : Nat := (pieces.map turns).sum

theorem moved_cons (p : LocationPiece) (pieces : List LocationPiece) :
    moved (p :: pieces) = turns p + moved pieces := by
  rw [moved, moved, List.map_cons, List.sum_cons]

theorem turns_le (p : LocationPiece) : turns p ≤ bitCount p := by
  have hBits : pieceBits p ≤ bitCount p := unsigned_le _
  have hEnd := unsigned_le (p.bitOffs.toNat + pieceBits p)
  unfold turns
  omega

theorem moved_le (pieces : List LocationPiece) : moved pieces ≤ total pieces :=
  List.sum_le_sum fun p _ => turns_le p

/-- Pieces are read within their buffers, and bits that are read are bits that were moved. -/
theorem readPieces_ok (h : readPieces refuse big s pieces off bf = .ok bf')
    (hSmall : off + moved pieces < 2 ^ 32) :
    (∀ p ∈ pieces, p.reg = none → p.value = none → ∀ j, p.bitOffs.toNat ≤ j →
        j < p.bitOffs.toNat + turns p → j / 8 < pieceSize p) ∧
      ∀ j, bitAt big bf' j = true → bitAt big bf j = true ∨ off ≤ j ∧ j < off + moved pieces := by
  induction pieces generalizing off bf with
  | nil =>
    rw [readPieces] at h
    rw [← Except.ok.inj h]
    exact ⟨fun p hp => absurd hp List.not_mem_nil, fun j hj => .inl hj⟩
  | cons p pieces ih =>
    rw [moved_cons] at hSmall ⊢
    obtain ⟨pbf, r, hSource, hGather, hRest⟩ := readPieces_cons h
    obtain ⟨hIn, hOff, hBits⟩ := gather_ok hGather (by omega)
    obtain ⟨hInside, hRestBits⟩ := ih hRest (by omega)
    refine ⟨fun q hq => ?_, fun j hj => ?_⟩
    · rcases List.mem_cons.1 hq with rfl | hq
      · intro hReg hValue j hj hj'
        have hLength : pbf.length = pieceSize q := by
          rw [sourcePiece_eq fun _ => hValue, loadPiece, hReg] at hSource
          obtain ⟨-, -, hSource⟩ := Fallible.bind_eq_ok hSource
          rw [← Except.ok.inj hSource, Target.readMem, List.length_map, List.length_range]
        rw [← hLength]
        exact hIn j hj hj'
      · exact hInside q hq
    · rcases hRestBits j hj with hOld | hNew
      · exact (hBits j hOld).imp_right (by omega)
      · exact .inr (by omega)

/-- Every bit is set. -/
theorem bitAt_ones {k : Nat} (h : i / 8 < k) : bitAt big (List.replicate k 0xFF) i = true := by
  unfold bitAt
  rw [List.getD_eq_getElem?_getD, List.getElem?_replicate, if_pos h]
  have hOnes : ∀ m : Fin 8, (0xFF : UInt8).toBitVec.getLsbD m = true := by decide
  exact hOnes ⟨bitNumber big i, bitNumber_lt big i⟩

/-- If everything is moved then every piece is. -/
theorem turns_eq (h : total pieces ≤ moved pieces) : ∀ p ∈ pieces, turns p = bitCount p := by
  induction pieces with
  | nil => exact fun p hp => absurd hp List.not_mem_nil
  | cons p pieces ih =>
    rw [total_cons, moved_cons] at h
    have hHere := turns_le p
    have hRest := moved_le pieces
    intro q hq
    rcases List.mem_cons.1 hq with rfl | hq
    · omega
    · exact ih (by omega) q hq

theorem fits_of_turns (hTurns : turns p = bitCount p) (hCount : bitCount p < 2 ^ 32)
    (hInside : p.reg = none → ∀ j, p.bitOffs.toNat ≤ j → j < p.bitOffs.toNat + turns p →
      j / 8 < pieceSize p) : Fits p := by
  intro hSome
  refine ⟨?_, fun hReg => ?_⟩
  · have hBits : pieceBits p = bitCount p := unsigned_of_lt hCount
    have hLt := unsigned_lt (p.bitOffs.toNat + bitCount p)
    unfold turns at hTurns
    rw [hBits] at hTurns
    omega
  · have hLast := hInside hReg (p.bitOffs.toNat + bitCount p - 1) (by omega) (by omega)
    omega

/-- Pieces that are always read as they were written fit. -/
theorem AllFit.of_roundTrip (hWell : ∀ p ∈ pieces, WellFormed p)
    (h : ∀ s value, value.length = totalSize pieces →
      RoundTrip big pieces (fun _ => none) s value) : AllFit pieces := by
  have hRead : ∃ s bytes, readLocationPieces (fun _ => none) big pieces s = .ok bytes ∧
      IsPadded big pieces (List.replicate (totalSize pieces) 0xFF) bytes := by
    have hRound := h ⟨fun _ => 0, fun _ => Vector.replicate _ 0⟩
      (List.replicate (totalSize pieces) 0xFF) List.length_replicate
    obtain ⟨s', hWrite⟩ := hRound.total fun ⟨a, ha⟩ => ha rfl
    exact ⟨s', hRound.reads s' hWrite⟩
  obtain ⟨s, bytes, hBytes, hLength, hBits⟩ := hRead
  have hCount : total pieces + 7 < 2 ^ 32 := by
    by_contra hMany
    have hSize := readPieces_length hBytes
    have hSmall := unsigned_lt (bufferBits pieces + 7)
    rw [hLength, List.length_replicate, List.length_replicate, bufferSize, totalSize] at hSize
    omega
  rw [readLocationPieces_eq hCount] at hBytes
  have hMoved := moved_le pieces
  have hStart := start_le big pieces
  have hRoom : start big pieces + moved pieces < 2 ^ 32 := by
    have hSize : 8 * totalSize pieces ≤ total pieces + 7 := Nat.mul_div_le _ 8
    omega
  obtain ⟨hInside, hSet⟩ := readPieces_ok hBytes hRoom
  refine ⟨hCount, fun p hp => ?_⟩
  have hLe := bitCount_le hp
  by_cases hSome : 0 < bitCount p
  · have hLast : bitAt big bytes (start big pieces + total pieces - 1) = true := by
      rw [hBits, bitAt_ones (by omega), decide_eq_true (by omega)]
      rfl
    have hAll : total pieces ≤ moved pieces := by
      rcases hSet _ hLast with hZero | hNew
      · rw [bitAt_replicate] at hZero
        cases hZero
      · omega
    exact fits_of_turns (turns_eq hAll p hp) (by omega) fun hReg =>
      hInside p hp hReg ((hWell p hp).place hReg)
  · exact fun h => absurd h hSome

end

/-- Pieces that do not overlap are read as they were written exactly if they fit. -/
theorem roundTrip_iff (big : Bool) (pieces : List LocationPiece)
    (hWell : ∀ p ∈ pieces, WellFormed p) (hNodup : (places big pieces).Nodup) :
    (∀ refuse s value, value.length = totalSize pieces →
      RoundTrip big pieces refuse s value) ↔ AllFit pieces := by
  constructor
  · intro h
    exact AllFit.of_roundTrip hWell (h _)
  · intro h refuse s value hLength
    exact h.roundTrip hWell hNodup hLength

/-- A byte of memory, and then three bits from the third one on of a register. -/
def byteAndBits : List LocationPiece :=
  [{ LocationPiece.zero with addr := 16, size := 1 },
    { LocationPiece.zero with reg := some ⟨0, 2, true⟩, bitOffs := 2, bitSize := 3 }]

theorem roundTrip_iff_byteAndBits :
    (∀ refuse s value, value.length = totalSize byteAndBits →
      RoundTrip true byteAndBits refuse s value) ↔ AllFit byteAndBits := by
  refine roundTrip_iff true byteAndBits (fun p hp => ?_) (by decide)
  rcases List.mem_cons.1 hp with rfl | hp
  · exact ⟨rfl, rfl, fun _ => rfl, by decide, by decide, by decide⟩
  · rw [List.mem_singleton.1 hp]
    exact ⟨rfl, rfl, fun h => (Option.some_ne_none _ h).elim, by decide, by decide,
      fun r hr => by rw [← Option.some.inj hr]; decide⟩

/-- The last bit of the four billion that can be counted, and the next one. -/
def distant : LocationPiece :=
  { LocationPiece.zero with bitOffs := BitVec.ofNat 32 (2 ^ 32 - 1), bitSize := 2 }

/-- None of its bits are moved. -/
theorem not_roundTrip :
    WellFormed distant ∧ (places false [distant]).Nodup ∧
      ¬ RoundTrip false [distant] (fun _ => none)
        ⟨fun _ => 0, fun r => Vector.replicate r.size 0⟩ [3] := by
  refine ⟨⟨rfl, rfl, fun _ => rfl, by decide, by decide, by decide⟩, by decide, fun h => ?_⟩
  obtain ⟨s', hWrite⟩ := h.total fun ⟨a, ha⟩ => ha rfl
  obtain ⟨bytes, hRead, -, hBits⟩ := h.reads s' hWrite
  have hNothing : readLocationPieces (fun _ => none) false [distant] s' = .ok [0] := rfl
  rw [hNothing] at hRead
  have hFirst := hBits 0
  rw [← Except.ok.inj hRead] at hFirst
  exact absurd hFirst (by decide)

end TcfAgent.Pieces
