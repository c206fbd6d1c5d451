import TcfAgent.Services.DwarfIoBounds

/-!
# Bytes and what is read from them

What the readers of `services/dwarfio.c` give where the section has the bytes of a number, a string
or a block at the position.

Main results:

* `scans_number`, `scans_uleb`, `scans_sleb` — numbers are read as they are spelled;
* `string_eq` — and so are strings.
-/

namespace TcfAgent.DwarfIo

open TcfAgent.Lib hiding raise fault ensure orFault orRaise bind_of_ok bind_of_error bind_eq_ok
open TcfAgent.Lib.Attempt TcfAgent.Location

/-- The section has these bytes here. -/
def Here (sec : Section) (pos : Nat) (bytes : List UInt8) : Prop := bytes <+: sec.data.drop pos

/-- The bytes are read, all of them, and give this. -/
def Scans {α : Type} (sec : Section) (p : Scan α) (bytes : List UInt8) (a : α) : Prop :=
  ∀ pos, Here sec pos bytes → p pos = (.ok a, pos + bytes.length)

section

variable {sec : Section} {pos : Nat} {bytes bytes' raw : List UInt8} {b : UInt8} {α β : Type}

theorem here_append :
    Here sec pos (bytes ++ bytes') ↔ Here sec pos bytes ∧ Here sec (pos + bytes.length) bytes' := by
  unfold Here
  constructor
  · rintro ⟨rest, hRest⟩
    rw [List.append_assoc] at hRest
    refine ⟨⟨bytes' ++ rest, hRest⟩, rest, ?_⟩
    rw [← List.drop_drop, ← hRest, List.drop_left]
  · rintro ⟨⟨rest, hRest⟩, rest', hRest'⟩
    rw [← List.drop_drop, ← hRest, List.drop_left] at hRest'
    exact ⟨rest', by rw [List.append_assoc, hRest', hRest]⟩

theorem here_cons : Here sec pos (b :: bytes) ↔ Here sec pos [b] ∧ Here sec (pos + 1) bytes :=
  @here_append sec pos [b] bytes

theorem Here.end_le (h : Here sec pos bytes) (hSome : bytes ≠ []) :
    pos + bytes.length ≤ sec.data.length := by
  have hLength := List.IsPrefix.length_le h
  have hPos : 0 < bytes.length := List.length_pos_of_ne_nil hSome
  rw [List.length_drop] at hLength
  omega

theorem Here.take_eq (h : Here sec pos bytes) : (sec.data.drop pos).take bytes.length = bytes :=
  (List.prefix_iff_eq_take.1 h).symm

theorem Here.takeNumber (h : Here sec pos raw) (hEnds : Leb128.Ends raw) :
    Leb128.takeNumber (sec.data.drop pos) = some (raw, (sec.data.drop pos).drop raw.length) := by
  obtain ⟨rest, hRest⟩ := h
  rw [← hRest, Leb128.takeNumber_append hEnds, List.drop_left]

/-- Neither can the end of what is there be beyond the numbers. -/
theorem Here.end_lt (h : Here sec pos bytes) (hSome : bytes ≠ []) :
    pos + bytes.length < 2 ^ 64 := (h.end_le hSome).trans_lt sec.size_lt

theorem scans_u1 (b : UInt8) : Scans sec (readU1 sec) [b] b := by
  intro pos hHere
  have hEnd := hHere.end_le (List.cons_ne_nil b [])
  have hPos : pos < sec.data.length := hEnd
  have hByte := hHere.take_eq
  rw [List.drop_eq_getElem_cons hPos] at hByte
  rw [readU1_eq, dif_pos hPos]
  rw [show sec.data[pos] = b from (List.cons.inj hByte).1]
  rfl

theorem scans_number (hSome : bytes ≠ []) :
    Scans sec (readNumber sec bytes.length) bytes (number sec.bigEndian bytes) := by
  intro pos hHere
  rw [readNumber_eq (hHere.end_lt hSome), if_neg (Nat.not_lt.2 (hHere.end_le hSome)), hHere.take_eq]

/-- Nothing can be read behind the end. -/
theorem scans_read {size : BitVec 32} (hSize : size.toNat = bytes.length)
    (hPos : pos ≤ sec.data.length)
    (hHere : Here sec pos bytes) : read sec size pos = (.ok bytes, pos + bytes.length) := by
  have hLong := sec.size_lt
  have hLength := List.IsPrefix.length_le hHere
  rw [List.length_drop] at hLength
  have hCheck : checkSize sec size.toNat pos = (.ok ⟨⟩, pos) := by
    rw [checkSize_eq (by omega), if_neg (by omega)]
  rw [read, bind_of_ok hCheck, hSize, nextBytes_eq (by omega), hHere.take_eq]

theorem scans_leb (w : Nat) (signed : Bool) (hEnds : Leb128.Ends raw) :
    Scans sec (readLeb sec w signed (sec.data.length + 1) 0 0) raw (lebWord w signed 0 0 raw) := by
  intro pos hHere
  have hEnd := hHere.end_le (Leb128.ends_ne_nil hEnds)
  rw [readLeb_eq w signed 0 0 (by omega) (by omega), hHere.takeNumber hEnds]

theorem scans_uleb (hEnds : Leb128.Ends raw) :
    Scans sec (readULEB128 sec) raw (BitVec.ofNat 32 (Leb128.value raw)) := by
  have hRead := @scans_leb sec raw 32 false hEnds
  rwa [show lebWord 32 false 0 0 raw = ulebWord 32 raw from rfl, ulebWord_eq] at hRead

theorem scans_u8leb (hEnds : Leb128.Ends raw) :
    Scans sec (readU8LEB128 sec) raw (BitVec.ofNat 64 (Leb128.value raw)) := by
  have hRead := @scans_leb sec raw 64 false hEnds
  rwa [show lebWord 64 false 0 0 raw = ulebWord 64 raw from rfl, ulebWord_eq] at hRead

theorem scans_sleb (hEnds : Leb128.Ends raw) :
    Scans sec (readSLEB128 sec) raw (BitVec.ofInt 32 (Leb128.signedValue raw)) := by
  have hRead := @scans_leb sec raw 32 true hEnds
  rwa [show lebWord 32 true 0 0 raw = slebWord 32 raw from rfl,
    slebWord_eq 32 (Leb128.ends_ne_nil hEnds)] at hRead

/-- The loop ends at the zero. -/
theorem readChars_eq {chars : List UInt8} (hChars : 0 ∉ chars) {fuel length : Nat}
    (hFuel : chars.length < fuel) :
    Scans sec (readChars sec fuel length) (chars ++ [0]) (length + chars.length) := by
  induction chars generalizing fuel length with
  | nil =>
    obtain ⟨fuel, rfl⟩ := Nat.exists_eq_succ_of_ne_zero (Nat.ne_of_gt hFuel)
    intro pos hHere
    rw [readChars, bind_of_ok (scans_u1 0 pos hHere)]
    rfl
  | cons b chars ih =>
    obtain ⟨fuel, rfl⟩ := Nat.exists_eq_succ_of_ne_zero (Nat.ne_of_gt (Nat.zero_lt_of_lt hFuel))
    obtain ⟨hFirst, hRest⟩ := not_or.1 (mt List.mem_cons.2 hChars)
    intro pos hHere
    obtain ⟨hByte, hNext⟩ := here_cons.1 hHere
    rw [readChars, bind_of_ok (scans_u1 b pos hByte), if_neg (Ne.symm hFirst)]
    refine (ih hRest (Nat.lt_of_succ_lt_succ hFuel) _ hNext).trans ?_
    refine Prod.ext (congrArg Except.ok ?_) ?_ <;> simp <;> omega

theorem string_eq {chars : List UInt8} (hChars : 0 ∉ chars) (hHere : Here sec pos (chars ++ [0])) :
    readString sec pos = (.ok (if chars.length % 2 ^ 32 = 0 then none else some pos),
      pos + (chars.length + 1)) := by
  have hEnd := hHere.end_le (by simp)
  have hLength : (chars ++ [0]).length = chars.length + 1 := by simp
  have hRead := @readChars_eq sec chars hChars (sec.data.length + 1) 0 (by omega) pos hHere
  rw [readString, bind_of_ok (get_run pos), bind_of_ok hRead, hLength, Nat.zero_add]
  rfl

theorem skip_eq {n : Nat} {w : BitVec 64} (hw : w.toNat = n) (h : pos + n ≤ sec.data.length) :
    skip sec w pos = (.ok ⟨⟩, pos + n) := by
  have hLong := sec.size_lt
  rw [skip, bind_of_ok (get_run pos), hw, u8_of_lt (by omega), if_neg (by omega)]
  rfl

end

end TcfAgent.DwarfIo
