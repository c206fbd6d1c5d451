import TcfAgent.Lib.Run
import TcfAgent.Services.DwarfIo

/-!
# The DWARF reader stays in its section

A run of the reader starts with `dio_EnterSection` and goes on with calls in any order, also after
an exception. It stays in the section, unless a section is entered at its end, or an entry is taken
to be longer than the section: the data of attributes that are skipped and the attribute codes of
DWARF 1 are not checked against the end.

Main results:

* `readNumber_eq`, `readULEB128_eq` — what the readers of numbers do;
* `keeps_readAttribute` — attributes are read within the section;
* `readEntry_ends`   — and so are entries whose turns all fit;
* `staysInside`      — what a whole run does.
-/

namespace TcfAgent.DwarfIo

open TcfAgent.Lib hiding raise fault ensure orFault orRaise bind_of_ok bind_of_error bind_eq_ok
open TcfAgent.Lib.Attempt TcfAgent.Location

/-! ## Readers of numbers -/

section

variable {sec : Section} {pos n : Nat}

theorem u8_of_lt (h : n < 2 ^ 64) : u8 n = n := Nat.mod_eq_of_lt h

theorem nextByte_eq (h : pos < sec.data.length) :
    nextByte sec pos = (.ok sec.data[pos], pos + 1) := by
  have hLong := sec.size_lt
  have hByte : (orFault sec.data[pos]? : Scan UInt8) pos = (.ok sec.data[pos], pos) := by
    rw [List.getElem?_eq_getElem h]
    rfl
  rw [nextByte, bind_of_ok (get_run pos), bind_of_ok hByte, u8_of_lt (by omega)]
  rfl

theorem nextBytes_eq (h : pos + n ≤ sec.data.length) :
    nextBytes sec n pos = (.ok ((sec.data.drop pos).take n), pos + n) := by
  induction n generalizing pos with
  | zero =>
    rw [List.take_zero]
    rfl
  | succ n ih =>
    have hHere : pos < sec.data.length := by omega
    rw [nextBytes, bind_of_ok (nextByte_eq hHere), bind_of_ok (ih (by omega)),
      List.drop_eq_getElem_cons hHere, List.take_succ_cons, Nat.add_right_comm]
    rfl

theorem checkSize_eq (h : pos + n < 2 ^ 64) :
    checkSize sec n pos =
      if sec.data.length < pos + n then (.error (.raise eof), pos) else (.ok ⟨⟩, pos) := by
  rw [checkSize, bind_of_ok (get_run pos), u8_of_lt h]
  split <;> rfl

theorem readNumber_eq (h : pos + n < 2 ^ 64) :
    readNumber sec n pos =
      if sec.data.length < pos + n then (.error (.raise eof), pos)
      else (.ok (number sec.bigEndian ((sec.data.drop pos).take n)), pos + n) := by
  have hCheck := @checkSize_eq sec pos n h
  rw [readNumber]
  split at hCheck
  · rw [bind_of_error hCheck, if_pos ‹_›]
  · rw [bind_of_ok hCheck, bind_of_ok (nextBytes_eq (by omega)), if_neg ‹_›]
    rfl

theorem readU1_eq : readU1 sec pos =
    if h : pos < sec.data.length then (.ok sec.data[pos], pos + 1)
    else (.error (.raise eof), pos) := by
  rw [readU1, bind_of_ok (get_run pos)]
  split
  · exact nextByte_eq ‹_›
  · rfl

/-- The bytes of the number are those up to the first one without its high bit. -/
theorem readLeb_eq (w : Nat) (signed : Bool) {fuel : Nat} (i : Nat) (res : BitVec w)
    (h : pos ≤ sec.data.length) (hFuel : sec.data.length - pos < fuel) :
    readLeb sec w signed fuel i res pos =
      match Leb128.takeNumber (sec.data.drop pos) with
      | none => (.error (.raise eof), sec.data.length)
      | some (raw, _) => (.ok (lebWord w signed i res raw), pos + raw.length) := by
  induction fuel generalizing pos i res with
  | zero => omega
  | succ fuel ih =>
    by_cases hEnd : pos < sec.data.length
    · have hByte : readU1 sec pos = (.ok sec.data[pos], pos + 1) := by
        rw [readU1_eq, dif_pos hEnd]
      rw [readLeb, bind_of_ok hByte, List.drop_eq_getElem_cons hEnd, Leb128.takeNumber]
      by_cases hLast : sec.data[pos] &&& 0x80 = 0
      · rw [if_pos hLast, if_pos ((last_iff _).1 hLast)]
        rfl
      · rw [if_neg hLast, if_neg (mt (last_iff _).2 hLast), ih _ _ (by omega) (by omega)]
        rcases hRest : Leb128.takeNumber (sec.data.drop (pos + 1)) with - | ⟨raw, rest⟩
        · rfl
        · obtain ⟨-, hEnds⟩ := Leb128.takeNumber_eq_some hRest
          have hMore : raw ≠ [] := Leb128.ends_ne_nil hEnds
          show (_, _) = (_, _)
          rw [lebWord.eq_3 _ _ _ _ _ _ hMore, List.length_cons, Nat.add_right_comm, Nat.add_assoc]
    · have hByte : readU1 sec pos = (.error (.raise eof), pos) := by
        rw [readU1_eq, dif_neg hEnd]
      obtain rfl : pos = sec.data.length := by omega
      rw [readLeb, bind_of_error hByte, List.drop_length]
      rfl

theorem readULEB128_eq (h : pos ≤ sec.data.length) :
    readULEB128 sec pos =
      match Leb128.takeNumber (sec.data.drop pos) with
      | none => (.error (.raise eof), sec.data.length)
      | some (raw, _) => (.ok (BitVec.ofNat 32 (Leb128.value raw)), pos + raw.length) := by
  rw [readULEB128, readLeb_eq 32 false 0 0 h (by omega)]
  rcases Leb128.takeNumber (sec.data.drop pos) with - | ⟨raw, rest⟩
  · rfl
  · show (_, _) = (_, _)
    rw [← ulebWord_eq]
    rfl

end

/-! ## Reading within the section -/

/-- A position in the section, or at its end, that is not in front of `lo`. -/
def Between (sec : Section) (lo pos : Nat) : Prop := lo ≤ pos ∧ pos ≤ sec.data.length

/-- No check of a size wraps. -/
def Checked (sec : Section) : Prop := sec.data.length + 2 ^ 32 ≤ 2 ^ 64

section

variable {sec : Section} {lo pos n : Nat}

theorem Between.lt (h : Between sec lo pos) (hLong : Checked sec) (hn : n < 2 ^ 32) :
    pos + n < 2 ^ 64 := by
  unfold Checked at hLong
  unfold Between at h
  omega

theorem keeps_readNumber (hLong : Checked sec) (hn : n < 2 ^ 32) :
    Keeps (Between sec lo) (readNumber sec n) := by
  intro pos hPos
  have hNumber := @readNumber_eq sec pos n (hPos.lt hLong hn)
  unfold Between at hPos
  by_cases hEnd : sec.data.length < pos + n
  · rw [if_pos hEnd] at hNumber
    exact (ends_of_raise hNumber).2 hPos
  · rw [if_neg hEnd] at hNumber
    exact (ends_of_ok hNumber).2 ⟨by omega, by omega⟩

theorem keeps_read (hLong : Checked sec) (size : BitVec 32) :
    Keeps (Between sec lo) (read sec size) := by
  intro pos hPos
  have hCheck := @checkSize_eq sec pos size.toNat (hPos.lt hLong size.isLt)
  unfold Between at hPos
  by_cases hEnd : sec.data.length < pos + size.toNat
  · rw [if_pos hEnd] at hCheck
    have hRead : read sec size pos = (.error (.raise eof), pos) := by
      rw [read, bind_of_error hCheck]
    exact (ends_of_raise hRead).2 hPos
  · rw [if_neg hEnd] at hCheck
    refine (ends_of_ok ((bind_of_ok hCheck).trans (nextBytes_eq (by omega)))).2 ⟨by omega, by omega⟩

theorem keeps_readU1 : Keeps (Between sec lo) (readU1 sec) := by
  intro pos hPos
  have hByte := @readU1_eq sec pos
  unfold Between at hPos
  split at hByte
  · exact (ends_of_ok hByte).2 ⟨by omega, by omega⟩
  · exact (ends_of_raise hByte).2 hPos

theorem keeps_readLeb (w : Nat) (signed : Bool) (fuel i : Nat) (res : BitVec w) :
    Keeps (Between sec lo) (readLeb sec w signed fuel i res) := by
  induction fuel generalizing i res with
  | zero => exact keeps_raise _
  | succ fuel ih =>
    rw [readLeb]
    exact keeps_readU1.bind fun n => keeps_ite (fun _ => keeps_pure _) fun _ => ih _ _

theorem keeps_readChars (fuel length : Nat) :
    Keeps (Between sec lo) (readChars sec fuel length) := by
  induction fuel generalizing length with
  | zero => exact keeps_raise _
  | succ fuel ih =>
    rw [readChars]
    exact keeps_readU1.bind fun b => keeps_ite (fun _ => keeps_pure _) fun _ => ih _

theorem keeps_readString : Keeps (Between sec lo) (readString sec) :=
  keeps_get.bind fun _ => (keeps_readChars _ _).bind fun _ => keeps_pure _

/-- `sDataPos + Bytes` can wrap, but then it is behind the end, or where it should be. -/
theorem keeps_skip (bytes : BitVec 64) : Keeps (Between sec 0) (skip sec bytes) := by
  refine keeps_get_bind fun pos hPos => ends_ite (fun _ => ends_raise hPos) fun hEnd => ?_
  exact ⟨Nat.zero_le _, Nat.le_of_not_lt hEnd⟩

theorem keeps_setPos (target : BitVec 64) : Keeps (Between sec 0) (setPos sec target) :=
  keeps_ite (fun _ => keeps_raise _) fun hEnd _ _ => ⟨Nat.zero_le _, Nat.le_of_not_lt hEnd⟩

end

/-- The position as in `Between`; nothing else that the reader of attributes may not change is
changed. -/
structure Within (env : Env) (lo : Nat) (w : Word) (e : Nat) (s : State) : Prop where
  pos      : Between env.sec lo s.pos
  unitSize : s.unitSize = w
  entryPos : s.entryPos = e

section

variable {env : Env} {lo e : Nat} {w : Word} {s : State} {α : Type} {p : Scan α}

theorem keeps_scan (h : Keeps (Between env.sec lo) p) :
    Keeps (Within env lo w e) (scan p) :=
  keeps_part h (fun _ hs => hs.pos) fun _ _ hs hPos => ⟨hPos, hs.unitSize, hs.entryPos⟩

theorem scan_of_ok {a : α} {pos : Nat} (h : p s.pos = (.ok a, pos)) :
    scan p s = (.ok a, { s with pos := pos }) := part_of_ok h

theorem scan_of_error {f : Stop Failure} {pos : Nat}
    (h : p s.pos = (.error f, pos)) : scan p s = (.error f, { s with pos := pos }) := by
  rw [scan, part, h]

theorem keeps_setForm (form : FormData) : Keeps (Within env lo w e) (setForm form) :=
  keeps_modify fun _ hs => ⟨hs.pos, hs.unitSize, hs.entryPos⟩

theorem keeps_theUnit (h : env.unit ≠ none) : Keeps (Within env lo w e) (theUnit env) := by
  intro s hs
  obtain ⟨u, hUnit⟩ := Option.ne_none_iff_exists'.1 h
  rw [theUnit, hUnit]
  exact ends_pure hs

theorem keeps_useSymbol (symbol : Option (Except Failure Symbol)) (dst : Option Nat) :
    Keeps (Within env lo w e) (useSymbol symbol dst) := by
  rcases symbol with - | symbol
  · exact keeps_pure _
  · refine (keeps_orRaise _).bind fun symbol => Keeps.bind ?_ fun _ => keeps_pure _
    exact keeps_modify fun s hs => ⟨hs.pos, hs.unitSize, hs.entryPos⟩

theorem keeps_applyFunc (func : Option (Word → Word → Word)) (size : Nat) (x : Word)
    (dst : Option Nat) : Keeps (Within env lo w e) (applyFunc func size x dst) := by
  rcases func with - | f
  · exact keeps_pure _
  · exact keeps_get.bind fun s => keeps_pure _

theorem keeps_relocateRecord (rel : Relocations) (size : Nat) (record : Record) (x : Word)
    (dst : Option Nat) : Keeps (Within env lo w e) (relocateRecord rel size record x dst) := by
  refine (keeps_useSymbol _ _).bind fun dst => keeps_ite (fun _ => ?_) fun _ => keeps_pure _
  exact (keeps_orRaise _).bind fun func => keeps_applyFunc _ _ _ _

theorem keeps_relocateRecords (rel : Relocations) (size : Nat) (records : List Record) (x : Word)
    (dst : Option Nat) : Keeps (Within env lo w e) (relocateRecords rel size records x dst) := by
  induction records generalizing x dst with
  | nil => exact keeps_pure _
  | cons record records ih =>
    exact (keeps_relocateRecord rel size record x dst).bind fun r => ih r.1 r.2

theorem keeps_relocate (pos size : Nat) (x : Word) :
    Keeps (Within env lo w e) (relocate env pos size x) := by
  unfold relocate
  split
  · exact keeps_pure _
  · exact (keeps_orRaise _).bind fun _ => keeps_relocateRecords _ _ _ _ _

theorem keeps_readAddressX (hLong : Checked env.sec) (size : Nat) :
    Keeps (Within env lo w e) (readAddressX env size) := by
  refine keeps_get.bind fun s => keeps_ite (fun hSize => ?_) fun _ => keeps_raise _
  exact (keeps_scan (keeps_readNumber hLong (by omega))).bind fun x => keeps_relocate _ _ _

theorem keeps_readFormAddress (hLong : Checked env.sec) (size : Nat) (base : Word) :
    Keeps (Within env lo w e) (readFormAddress env size base) :=
  (keeps_readAddressX hLong size).bind fun _ => keeps_setForm _

theorem keeps_readFormBlock (hLong : Checked env.sec) {size : Nat} (hSize : size < 2 ^ 32) :
    Keeps (Within env lo w e) (readFormBlock env size) := by
  refine keeps_get.bind fun s => (keeps_setForm _).bind fun _ t ht => ?_
  have hPos := ht.pos.lt hLong hSize
  have hCheck := @checkSize_eq env.sec t.pos size hPos
  by_cases hEnd : env.sec.data.length < t.pos + size
  · rw [if_pos hEnd] at hCheck
    have hScan : scan (checkSize env.sec size) t = (.error (.raise eof), t) :=
      scan_of_error hCheck
    exact (ends_of_raise (bind_of_error hScan)).2 ht
  · rw [if_neg hEnd] at hCheck
    have hScan : scan (checkSize env.sec size) t = (.ok ⟨⟩, t) := scan_of_ok hCheck
    have hLo := ht.pos.1
    have hAfter : Between env.sec lo (u8 (t.pos + size)) := by
      rw [u8_of_lt hPos]
      exact ⟨by omega, by omega⟩
    exact ends_bind.2 ((ends_of_ok hScan).2 ⟨hAfter, ht.unitSize, ht.entryPos⟩)

theorem keeps_readFormData (size : Nat) (data : Word) (sec : Option Nat) :
    Keeps (Within env lo w e) (readFormData size data sec) :=
  keeps_get.bind fun _ => keeps_setForm _

theorem keeps_readFormRelRef (hUnit : env.unit ≠ none) (attr : BitVec 16) (offset : Nat) :
    Keeps (Within env lo w e) (readFormRelRef env attr offset) :=
  (keeps_theUnit hUnit).bind fun _ => keeps_get.bind fun _ =>
    keeps_ite (fun _ => keeps_raise _) fun _ => keeps_setForm _

theorem keeps_readFormString : Keeps (Within env lo w e) (readFormString env) :=
  keeps_get.bind fun _ => (keeps_scan (keeps_readChars _ _)).bind fun _ => keeps_setForm _

theorem keeps_readFormStringRef (hLong : Checked env.sec) (hUnit : env.unit ≠ none) (alt : Bool) :
    Keeps (Within env lo w e) (readFormStringRef env alt) := by
  refine (keeps_orRaise _).bind fun t => (keeps_theUnit hUnit).bind fun u =>
    (keeps_readAddressX hLong _).bind fun r => ?_
  rcases t.stringSize (r.1 - t.addr) with - | size
  · exact keeps_raise _
  · exact keeps_setForm _

/-- The forms for which the unit has to be known. -/
def needsUnit : Form → Bool
  | .gnuRefAlt | .strp | .gnuStrpAlt | .ref1 | .ref2 | .ref4 | .ref8 | .refUdata | .secOffset =>
    true
  | _ => false

theorem foldl_number_lt (bytes : List UInt8) (n : Nat) :
    bytes.foldl (fun n b => n * 256 + b.toNat) n < (n + 1) * 256 ^ bytes.length := by
  induction bytes generalizing n with
  | nil => simp
  | cons b bytes ih =>
    have hByte := b.toNat_lt
    have hNext : (n * 256 + b.toNat + 1) * 256 ^ bytes.length ≤
        (n + 1) * 256 * 256 ^ bytes.length := Nat.mul_le_mul_right _ (by omega)
    rw [List.length_cons, Nat.pow_succ', ← Nat.mul_assoc]
    exact (ih _).trans_le hNext

theorem number_lt (big : Bool) (bytes : List UInt8) : number big bytes < 256 ^ bytes.length := by
  have hBytes := foldl_number_lt (if big then bytes else bytes.reverse) 0
  have hLength : (if big then bytes else bytes.reverse).length = bytes.length := by
    split
    · rfl
    · exact List.length_reverse
  rwa [hLength, Nat.zero_add, Nat.one_mul] at hBytes

theorem nextBytes_length {sec : Section} {n pos pos' : Nat} {bytes : List UInt8}
    (h : nextBytes sec n pos = (.ok bytes, pos')) : bytes.length = n := by
  induction n generalizing pos pos' bytes with
  | zero =>
    cases h
    rfl
  | succ n ih =>
    obtain ⟨b, pos₁, -, h⟩ := bind_eq_ok.1 h
    obtain ⟨bs, pos₂, hRest, h⟩ := bind_eq_ok.1 h
    cases h
    rw [List.length_cons, ih hRest]

theorem readNumber_lt {sec : Section} {n pos pos' x : Nat}
    (h : readNumber sec n pos = (.ok x, pos')) : x < 256 ^ n := by
  obtain ⟨-, pos₁, -, h⟩ := bind_eq_ok.1 h
  obtain ⟨bytes, pos₂, hBytes, h⟩ := bind_eq_ok.1 h
  cases h
  rw [← nextBytes_length hBytes]
  exact number_lt _ _

/-- A block whose length is read first. -/
theorem keeps_readLength_block (hLong : Checked env.sec) {k : Nat} (hk : k ≤ 4) :
    Keeps (Within env lo w e) (scan (readNumber env.sec k) >>= fun n => readFormBlock env n) := by
  intro s hs
  have hNumber : Keeps (Within env lo w e) (scan (readNumber env.sec k)) :=
    keeps_scan (keeps_readNumber hLong (by omega))
  refine (hNumber s hs).with_result.bind fun n t ⟨ht, hRun⟩ => ?_
  obtain ⟨pos', hRead, -⟩ := part_eq_ok.1 hRun
  have hn : n < 256 ^ 4 := (readNumber_lt hRead).trans_le (Nat.pow_le_pow_right (by decide) hk)
  exact keeps_readFormBlock hLong (by omega) t ht

theorem keeps_readULEB128 : Keeps (Between env.sec lo) (readULEB128 env.sec) :=
  keeps_readLeb _ _ _ _ _

theorem keeps_readU2 (hLong : Checked env.sec) : Keeps (Between env.sec lo) (readU2 env.sec) :=
  keeps_readNumber hLong (by decide)

theorem keeps_readU4 (hLong : Checked env.sec) : Keeps (Between env.sec lo) (readU4 env.sec) :=
  keeps_readNumber hLong (by decide)

theorem keeps_readU8 (hLong : Checked env.sec) : Keeps (Between env.sec lo) (readU8 env.sec) :=
  keeps_readNumber hLong (by decide)

theorem keeps_readForm (hLong : Checked env.sec) {f : Form}
    (hUnit : needsUnit f = true → env.unit ≠ none) (attr : BitVec 16) :
    Keeps (Within env lo w e) (readForm env attr f) := by
  cases f with
  | addr => exact keeps_readFormAddress hLong _ _
  | refAddr => exact keeps_readFormAddress hLong _ _
  | ref => exact (keeps_scan (keeps_readU4 hLong)).bind fun _ => keeps_setForm _
  | gnuRefAlt =>
    exact (keeps_theUnit (hUnit rfl)).bind fun _ => keeps_readFormAddress hLong _ _
  | block1 => exact (keeps_scan keeps_readU1).bind fun n => keeps_readFormBlock hLong (by
      have hByte := n.toNat_lt
      omega)
  | block2 => exact keeps_readLength_block hLong (by decide)
  | block4 => exact keeps_readLength_block hLong (by decide)
  | block | exprloc =>
    exact (keeps_scan keeps_readULEB128).bind fun n => keeps_readFormBlock hLong n.isLt
  | data1 | flag => exact (keeps_scan keeps_readU1).bind fun _ => keeps_readFormData _ _ _
  | data2 => exact (keeps_scan (keeps_readU2 hLong)).bind fun _ => keeps_readFormData _ _ _
  | data4 => exact (keeps_scan (keeps_readU4 hLong)).bind fun _ => keeps_readFormData _ _ _
  | data8 | refSig8 =>
    exact (keeps_scan (keeps_readU8 hLong)).bind fun _ => keeps_readFormData _ _ _
  | sdata | udata => exact (keeps_scan (keeps_readLeb _ _ _ _ _)).bind fun _ => keeps_setForm _
  | flagPresent => exact keeps_readFormData _ _ _
  | string => exact keeps_readFormString
  | strp => exact keeps_readFormStringRef hLong (hUnit rfl) _
  | gnuStrpAlt => exact keeps_readFormStringRef hLong (hUnit rfl) _
  | ref1 => exact (keeps_scan keeps_readU1).bind fun _ => keeps_readFormRelRef (hUnit rfl) _ _
  | ref2 =>
    exact (keeps_scan (keeps_readU2 hLong)).bind fun _ => keeps_readFormRelRef (hUnit rfl) _ _
  | ref4 =>
    exact (keeps_scan (keeps_readU4 hLong)).bind fun _ => keeps_readFormRelRef (hUnit rfl) _ _
  | ref8 =>
    exact (keeps_scan (keeps_readU8 hLong)).bind fun _ => keeps_readFormRelRef (hUnit rfl) _ _
  | refUdata =>
    exact (keeps_scan keeps_readULEB128).bind fun _ => keeps_readFormRelRef (hUnit rfl) _ _
  | secOffset =>
    exact (keeps_theUnit (hUnit rfl)).bind fun u => (keeps_readAddressX hLong _).bind fun _ =>
      keeps_readFormData _ _ _

/-- The unit is known where the form needs it. -/
def UnitKnown (env : Env) (form : BitVec 16) : Prop :=
  ∀ f, formOf form = some f → needsUnit f = true → env.unit ≠ none

theorem keeps_sectionOffsetSize {form : Option Form}
    (hUnit : ∀ f, form = some f → needsUnit f = true → env.unit ≠ none) :
    Keeps (Within env lo w e) (sectionOffsetSize env form) := by
  unfold sectionOffsetSize
  split
  · exact keeps_pure _
  · exact keeps_pure _
  · exact keeps_pure _
  · exact (keeps_theUnit (hUnit _ rfl rfl)).bind fun _ => keeps_pure _
  · exact keeps_raise _

/-- Attributes are read within the section. -/
theorem keeps_readAttribute (hLong : Checked env.sec) (attr : BitVec 16) {form : BitVec 16}
    (hUnit : UnitKnown env form) : Keeps (Within env lo w e) (readAttribute env attr form) := by
  refine (keeps_setForm _).bind fun _ => keeps_ite (fun _ => ?_) fun _ => ?_
  · exact (keeps_sectionOffsetSize hUnit).bind fun _ => keeps_readFormAddress hLong _ _
  · split
    · exact keeps_raise _
    · exact keeps_readForm hLong (hUnit _ ‹_›) attr

/-! ## Skipping within the section -/

/-- A length of `k` bytes, and so many bytes behind it. -/
def prefixedSize (sec : Section) (pos k : Nat) : Option Nat :=
  if pos + k ≤ sec.data.length then
    some (k + number sec.bigEndian ((sec.data.drop pos).take k))
  else none

/-- How many bytes the data of an attribute has that are skipped without a check. -/
def skipSize (env : Env) (pos : Nat) : Form → Option Nat
  | .addr => some (addressSize env)
  | .refAddr => some (refAddressSize env)
  | .data1 | .flag | .ref1 => some 1
  | .data2 | .ref2 => some 2
  | .data4 | .ref | .ref4 => some 4
  | .data8 | .ref8 | .refSig8 => some 8
  | .gnuRefAlt | .strp | .gnuStrpAlt | .secOffset => env.unit.map UnitDescriptor.offsetSize
  | .block1 => (env.sec.data[pos]?).map fun b => 1 + b.toNat
  | .block2 => prefixedSize env.sec pos 2
  | .block4 => prefixedSize env.sec pos 4
  | .block | .exprloc => (Leb128.takeNumber (env.sec.data.drop pos)).map fun p =>
      p.1.length + Leb128.value p.1 % 2 ^ 32
  | .sdata | .udata | .refUdata | .flagPresent | .string => none

/-- What is skipped lies in the section. -/
def Room (env : Env) (pos : Nat) (f : Form) : Prop :=
  ∀ n, skipSize env pos f = some n → pos + n ≤ env.sec.data.length

theorem ends_advance {n : Nat} (hs : Within env lo w e s)
    (h : s.pos + n ≤ env.sec.data.length) :
    Ends (advance n) (fun _ => Within env lo w e) (fun _ => Within env lo w e) s := by
  have hLong := env.sec.size_lt
  have hLo := hs.pos.1
  have hAfter : Between env.sec lo (u8 (s.pos + n)) := by
    rw [u8_of_lt (by omega)]
    exact ⟨by omega, h⟩
  exact ⟨hAfter, hs.unitSize, hs.entryPos⟩

theorem Within.moved {pos : Nat} (hs : Within env lo w e s) (h : s.pos ≤ pos)
    (hEnd : pos ≤ env.sec.data.length) : Within env lo w e { s with pos := pos } :=
  ⟨⟨hs.pos.1.trans h, hEnd⟩, hs.unitSize, hs.entryPos⟩

theorem ends_skip_prefixed (hLong : Checked env.sec) {k : Nat} (hk : k ≤ 4)
    (hs : Within env lo w e s)
    (hRoom : ∀ n, prefixedSize env.sec s.pos k = some n → s.pos + n ≤ env.sec.data.length) :
    Ends (scan (readNumber env.sec k) >>= fun n => advance n) (fun _ => Within env lo w e)
      (fun _ => Within env lo w e) s := by
  have hNumber := @readNumber_eq env.sec s.pos k (hs.pos.lt hLong (by omega))
  by_cases hEnd : env.sec.data.length < s.pos + k
  · rw [if_pos hEnd] at hNumber
    have hScan : scan (readNumber env.sec k) s = (.error (.raise eof), s) :=
      scan_of_error hNumber
    exact ends_bind.2 ((ends_of_raise hScan).2 hs)
  · rw [if_neg hEnd] at hNumber
    have hScan := scan_of_ok hNumber
    refine ends_bind.2 ((ends_of_ok hScan).2 (ends_advance (hs.moved (by omega) (by omega)) ?_))
    have hFits := hRoom _ (if_pos (by omega))
    rw [← Nat.add_assoc] at hFits
    exact hFits

theorem ends_skip_leb (hs : Within env lo w e s)
    (hRoom : ∀ raw rest, Leb128.takeNumber (env.sec.data.drop s.pos) = some (raw, rest) →
      s.pos + (raw.length + Leb128.value raw % 2 ^ 32) ≤ env.sec.data.length) :
    Ends (scan (readULEB128 env.sec) >>= fun n => advance n.toNat) (fun _ => Within env lo w e)
      (fun _ => Within env lo w e) s := by
  have hLeb := @readULEB128_eq env.sec s.pos hs.pos.2
  have hKeeps := @keeps_scan env lo e w _ _ keeps_readULEB128 s hs
  rcases hTake : Leb128.takeNumber (env.sec.data.drop s.pos) with - | ⟨raw, rest⟩
  · rw [hTake] at hLeb
    have hScan : scan (readULEB128 env.sec) s =
        (.error (.raise eof), { s with pos := env.sec.data.length }) := scan_of_error hLeb
    exact ends_bind.2 ((ends_of_raise hScan).2 ((ends_of_raise hScan).1 hKeeps))
  · rw [hTake] at hLeb
    have hScan := scan_of_ok hLeb
    have hFits := hRoom raw rest hTake
    refine ends_bind.2 ((ends_of_ok hScan).2 (ends_advance (hs.moved (by omega) (by omega)) ?_))
    rw [BitVec.toNat_ofNat]
    show s.pos + raw.length + _ ≤ _
    omega

theorem ends_theUnit_bind {β : Type} {q : UnitDescriptor → Io β} {Q : β → State → Prop}
    {E : Failure → State → Prop} (h : env.unit ≠ none)
    (hq : ∀ u, env.unit = some u → Ends (q u) Q E s) : Ends (theUnit env >>= q) Q E s := by
  obtain ⟨u, hUnit⟩ := Option.ne_none_iff_exists'.1 h
  have hRun : theUnit env s = (.ok u, s) := by
    rw [theUnit, hUnit]
    rfl
  exact ends_bind.2 ((ends_of_ok hRun).2 (hq u hUnit))

theorem ends_skipForm (hLong : Checked env.sec) (hUnit : env.unit ≠ none) {f : Form}
    (hs : Within env lo w e s) (hRoom : Room env s.pos f) :
    Ends (skipForm env f) (fun _ => Within env lo w e) (fun _ => Within env lo w e) s := by
  have hOffset : (∀ u, env.unit = some u → s.pos + u.offsetSize ≤ env.sec.data.length) →
      Ends (theUnit env >>= fun u => advance u.offsetSize) (fun _ => Within env lo w e)
        (fun _ => Within env lo w e) s := fun hFits =>
    ends_theUnit_bind hUnit fun u hu => ends_advance hs (hFits u hu)
  have hMap : (∀ n, env.unit.map UnitDescriptor.offsetSize = some n →
        s.pos + n ≤ env.sec.data.length) →
      ∀ u, env.unit = some u → s.pos + u.offsetSize ≤ env.sec.data.length := fun hFits u hu =>
    hFits _ (by rw [hu]; rfl)
  cases f with
  | addr | refAddr | data1 | flag | ref1 | data2 | ref2 | data4 | ref | ref4 | data8 | ref8
  | refSig8 => exact ends_advance hs (hRoom _ rfl)
  | gnuRefAlt | strp | gnuStrpAlt | secOffset => exact hOffset (hMap hRoom)
  | block1 =>
    have hByte := @readU1_eq env.sec s.pos
    split at hByte
    · next hHere =>
      have hFits := hRoom _ (by rw [skipSize, List.getElem?_eq_getElem hHere]; rfl)
      refine ends_bind.2 ((ends_of_ok (scan_of_ok hByte)).2
        (ends_advance (hs.moved (by omega) (by omega)) ?_))
      rwa [← Nat.add_assoc] at hFits
    · exact ends_bind.2 ((ends_of_raise (scan_of_error hByte)).2 hs)
  | block2 => exact ends_skip_prefixed hLong (by decide) hs hRoom
  | block4 => exact ends_skip_prefixed hLong (by decide) hs hRoom
  | block | exprloc =>
    refine ends_skip_leb hs fun raw rest hTake => hRoom _ ?_
    show Option.map _ _ = _
    rw [hTake]
    rfl
  | sdata | udata => exact keeps_discard (keeps_scan (keeps_readLeb _ _ _ _ _)) s hs
  | refUdata => exact keeps_discard (keeps_scan keeps_readULEB128) s hs
  | flagPresent => exact ends_pure hs
  | string => exact keeps_readFormString s hs

end

/-! ## One turn -/

/-- The unit, whose size is taken from a sibling at `pos`, ends there or behind. -/
structure SiblingFits (env : Env) (pos : Nat) (form : BitVec 16) (u : UnitDescriptor) : Prop where
  unit    : env.unit = some u
  version : u.version = 1
  form    : formOf form = some .ref
  start   : u.unitOffs.toNat < pos + 4
  finish  : pos + 4 ≤ env.sec.data.length → pos + 4 ≤ (u.unitOffs + BitVec.ofNat 64
    ((BitVec.ofNat 64 (number env.sec.bigEndian ((env.sec.data.drop pos).take 4)) -
      env.sec.addr - u.unitOffs).toNat % 2 ^ 32)).toNat

/-- A turn of the loop in `dio_ReadEntry`: what is taken without a check is in the section. -/
structure TurnFits (env : Env) (target tag : BitVec 16) (source : Source) (s : State) : Prop where
  codes   : ∀ size, source = .entry size → s.pos + 2 ≤ s.entryPos + size →
    s.pos + 2 ≤ env.sec.data.length
  skips   : ∀ next s₁ f, nextAttribute env source s = (.ok next, s₁) →
    unwanted target next.1.1 = true → next.1.1 ≠ 0 → formOf next.1.2 = some f → Room env s₁.pos f
  sibling : ∀ next s₁, nextAttribute env source s = (.ok next, s₁) →
    unwanted target next.1.1 = false → isUnitTag tag = true → next.1.1 = AT_sibling →
    s₁.unitSize = 0 → isRef next.1.2 = true → ∃ u, SiblingFits env s₁.pos next.1.2 u

/-- As `Within`, but the size of the unit can have been set. -/
structure Inside (env : Env) (lo e : Nat) (s : State) : Prop where
  pos      : Between env.sec lo s.pos
  entryPos : s.entryPos = e

section

variable {env : Env} {lo e : Nat} {w : Word} {s s' : State} {α : Type} {p : Io α}
  {target tag attr form : BitVec 16} {source : Source}

theorem Inside.within (h : Inside env lo e s) : Within env lo s.unitSize e s :=
  ⟨h.pos, rfl, h.entryPos⟩

theorem Within.inside (h : Within env lo w e s) : Inside env lo e s := ⟨h.pos, h.entryPos⟩

theorem Inside.weaken {lo' : Nat} (hLo : lo ≤ lo') (h : Inside env lo' e s) : Inside env lo e s :=
  ⟨⟨hLo.trans h.pos.1, h.pos.2⟩, h.entryPos⟩

theorem ends_inside
    (h : Ends p (fun _ => Within env lo w e) (fun _ => Within env lo w e) s) :
    Ends p (fun _ => Inside env lo e) (fun _ => Inside env lo e) s :=
  h.imp (fun _ _ => Within.inside) fun _ _ => Within.inside

/-- The data of the sibling in DWARF 1. -/
theorem readAttribute_sibling (hLong : Checked env.sec) (hPos : s.pos ≤ env.sec.data.length)
    (hForm : formOf form = some .ref) (h : readAttribute env AT_sibling form s = (.ok ⟨⟩, s')) :
    s.pos + 4 ≤ env.sec.data.length ∧
      s' = { s with
        pos := s.pos + 4
        form := { emptyForm with
          data := BitVec.ofNat 64
            (number env.sec.bigEndian ((env.sec.data.drop s.pos).take 4)), size := 4 } } := by
  have hPlain : isSectionOffset AT_sibling form = false := by
    unfold isSectionOffset
    simp [AT_sibling, AT_stmt_list, AT_ranges, AT_high_pc]
  obtain ⟨_, s₁, hSet, h⟩ := bind_eq_ok.1 h
  obtain rfl : s₁ = { s with form := emptyForm } := (Prod.mk.inj hSet).2.symm
  rw [if_neg (by simp [hPlain]), hForm] at h
  obtain ⟨x, s₂, hRead, h⟩ := bind_eq_ok.1 h
  obtain ⟨pos, hNumber, rfl⟩ := part_eq_ok.1 hRead
  rw [readU4, readNumber_eq (by unfold Checked at hLong; show s.pos + 4 < _; omega)] at hNumber
  split at hNumber
  · cases hNumber
  · next hEnd =>
    cases hNumber
    cases h
    exact ⟨Nat.le_of_not_lt hEnd, rfl⟩

theorem ends_checkUnit (hs : Within env lo w e s)
    (h : attr = AT_sibling → s.unitSize = 0 → isRef form = true →
      ∃ u, env.unit = some u ∧ u.version = 1 ∧ u.unitOffs.toNat < s.pos ∧
        s.pos ≤ (u.unitOffs + BitVec.ofNat 64
          ((s.form.data - env.sec.addr - u.unitOffs).toNat % 2 ^ 32)).toNat) :
    Ends (checkUnit env attr form) (fun _ => Inside env lo e) (fun _ => Inside env lo e) s := by
  refine ends_bind.2 (ends_get (ends_ite (fun hSibling => ?_) fun _ => ?_))
  · refine ends_ite (fun hRef => ?_) fun _ => ends_raise hs.inside
    obtain ⟨u, hUnit, hVersion, hStart, hFinish⟩ := h hSibling.1 hSibling.2 hRef
    have hRun : theUnit env s = (.ok u, s) := by
      rw [theUnit, hUnit]
      rfl
    rw [Attempt.ends_bind, ends_of_ok hRun]
    refine ends_bind.2 (ends_ensure hVersion (ends_bind.2 (ends_modify ?_)))
    refine ends_bind.2 (ends_get (ends_bind.2 (ends_ensure hStart (ends_ensure hFinish ?_))))
    exact ⟨hs.pos, hs.entryPos⟩
  · exact ends_ite (fun _ => ends_raise hs.inside) fun _ => ends_pure hs.inside

/-- An attribute that is read and reported. -/
theorem ends_visit (hLong : Checked env.sec) (hUnit : env.unit ≠ none) (hs : Inside env lo e s)
    (hSibling : isUnitTag tag = true → attr = AT_sibling → s.unitSize = 0 → isRef form = true →
      ∃ u, SiblingFits env s.pos form u) :
    Ends (visit env tag attr form) (fun _ => Inside env lo e) (fun _ => Inside env lo e) s := by
  have hReport : ∀ t, Inside env lo e t →
      Ends (report tag attr form) (fun _ => Inside env lo e) (fun _ => Inside env lo e) t :=
    fun t ht => ⟨ht.pos, ht.entryPos⟩
  have hRead : Ends (readData env attr form)
      (fun _ => Within env lo s.unitSize e) (fun _ => Within env lo s.unitSize e) s :=
    ends_ite (fun _ => keeps_readAttribute hLong attr (fun _ _ _ => hUnit) s hs.within)
      fun _ => ends_pure hs.within
  refine ends_bind.2 (hRead.with_result.imp ?_ fun _ _ => Within.inside)
  rintro _ t ⟨ht, hRun⟩
  refine (ends_ite (fun hTag => ends_checkUnit ht ?_) fun _ => ends_pure ht.inside).bind
    fun _ t' => hReport t'
  intro hAttr hSize hRef
  rw [ht.unitSize] at hSize
  obtain ⟨u, hFits⟩ := hSibling hTag hAttr hSize hRef
  have hForm : form ≠ 0 := by
    rintro rfl
    cases hFits.form
  subst hAttr
  have hSome : AT_sibling ≠ 0 ∧ form ≠ 0 := ⟨by decide, hForm⟩
  unfold readData at hRun
  rw [if_pos hSome] at hRun
  obtain ⟨hEnd, rfl⟩ := readAttribute_sibling hLong hs.pos.2 hFits.form hRun
  exact ⟨u, hFits.unit, hFits.version, hFits.start, hFits.finish hEnd⟩

theorem ends_turn (hLong : Checked env.sec) (hUnit : env.unit ≠ none) (hs : Inside env lo e s)
    (hSkip : unwanted target attr = true → attr ≠ 0 → ∀ f, formOf form = some f →
      Room env s.pos f)
    (hSibling : unwanted target attr = false → isUnitTag tag = true → attr = AT_sibling →
      s.unitSize = 0 → isRef form = true → ∃ u, SiblingFits env s.pos form u) :
    Ends (turn env target tag attr form) (fun _ => Inside env lo e) (fun _ => Inside env lo e)
      s := by
  refine ends_ite (fun hUnwanted => ends_ite (fun _ => ends_pure hs) fun hAttr => ?_) fun hWanted =>
    ends_visit hLong hUnit hs (hSibling (Bool.eq_false_of_not_eq_true hWanted))
  rcases hForm : formOf form with - | f
  · refine ends_visit hLong hUnit hs fun _ _ _ hRef => ?_
    rw [isRef, hForm] at hRef
    cases hRef
  · exact ends_inside (ends_skipForm hLong hUnit hs.within (hSkip hUnwanted hAttr f hForm))

/-- There are fewer turns than `fuel`. -/
def Enough (e fuel : Nat) (source : Source) (pos : Nat) : Prop :=
  match source with
  | .abbreviation attrs => attrs.length < fuel
  | .entry size => 8 ≤ size ∧ size < 2 ^ 32 ∧ 0 < fuel ∧ e + size ≤ pos + fuel

/-- An attribute code is taken, and the rest takes one turn less. -/
theorem ends_nextAttribute {fuel : Nat} (hLong : Checked env.sec)
    (hEntry : e ≤ env.sec.data.length) (hs : Inside env lo e s)
    (hEnough : Enough e (fuel + 1) source s.pos)
    (hCodes : ∀ size, source = .entry size → s.pos + 2 ≤ s.entryPos + size →
      s.pos + 2 ≤ env.sec.data.length) :
    Ends (nextAttribute env source)
      (fun next t => Inside env lo e t ∧
        (¬ (next.1.1 = 0 ∧ next.1.2 = 0) → ∀ pos, t.pos ≤ pos → Enough e fuel next.2 pos))
      (fun _ => Inside env lo e) s := by
  rcases source with (- | ⟨⟨attr, form⟩, attrs⟩) | size
  · exact ⟨hs, fun hMore => absurd ⟨rfl, rfl⟩ hMore⟩
  · have hLess : attrs.length < fuel := Nat.lt_of_succ_lt_succ hEnough
    refine ends_ite (fun _ => ?_) fun _ => ends_pure ⟨hs, fun _ _ _ => hLess⟩
    have hScan := ends_inside (@keeps_scan env lo e _ _ _ keeps_readULEB128 s hs.within)
    exact hScan.bind fun x t ht => ends_pure ⟨ht, fun _ _ _ => hLess⟩
  · obtain ⟨hMin, hMax, -, hFuel⟩ := hEnough
    have hPos := hs.pos
    have hBound : u8 (s.entryPos + size - 2) = e + size - 2 := by
      rw [hs.entryPos]
      exact u8_of_lt (by unfold Checked at hLong; omega)
    refine ends_bind.2 (ends_get (ends_ite (fun hMore => ?_) fun _ =>
      ends_pure ⟨hs, fun hMore => absurd ⟨rfl, rfl⟩ hMore⟩))
    rw [hBound] at hMore
    have hFits := hCodes size rfl (by rw [hs.entryPos]; omega)
    rw [Attempt.ends_bind, ends_of_ok (scan_of_ok (nextBytes_eq hFits))]
    have hLo := hPos.1
    refine ends_pure ⟨⟨⟨?_, hFits⟩, hs.entryPos⟩, fun _ pos hLater => ?_⟩
    · show lo ≤ s.pos + 2
      omega
    · have hNext : s.pos + 2 ≤ pos := hLater
      exact ⟨hMin, hMax, by omega, by omega⟩

end

/-! ## Entries -/

/-- `dio_ReadEntry`, called with the state `s`, comes to a turn of its loop. -/
inductive AtTurn (env : Env) (target : BitVec 16) (s : State) :
    BitVec 16 → Source → State → Prop where
  | abbreviation {u : UnitDescriptor} {code : BitVec 32} {abbr : Abbreviation} {s₁ s₂ : State}
      (hUnit : env.unit = some u) (hVersion : 2 ≤ u.version.toNat)
      (hCode : scan (readULEB128 env.sec) { s with entryPos := s.pos } = (.ok code, s₁))
      (hAbbr : (u.abbrevTable[code.toNat]?).join = some abbr)
      (hFirst : turn env target abbr.tag 0 (entryForm abbr.children) s₁ = (.ok ⟨⟩, s₂)) :
      AtTurn env target s abbr.tag (.abbreviation abbr.attrs) s₂
  | entry {u : UnitDescriptor} {size tag : Nat} {s₁ s₂ s₃ : State}
      (hUnit : env.unit = some u) (hVersion : u.version.toNat < 2)
      (hSize : scan (readU4 env.sec) { s with entryPos := s.pos } = (.ok size, s₁))
      (hMin : 8 ≤ size) (hTag : scan (readU2 env.sec) s₁ = (.ok tag, s₂))
      (hFirst : turn env target (BitVec.ofNat 16 tag) 0 (entryForm false) s₂ = (.ok ⟨⟩, s₃)) :
      AtTurn env target s (BitVec.ofNat 16 tag) (.entry size) s₃
  | next {tag : BitVec 16} {source : Source} {next : (BitVec 16 × BitVec 16) × Source}
      {s₁ s₂ s₃ : State} (hAt : AtTurn env target s tag source s₁)
      (hNext : nextAttribute env source s₁ = (.ok next, s₂))
      (hTurn : turn env target tag next.1.1 next.1.2 s₂ = (.ok ⟨⟩, s₃))
      (hMore : ¬ (next.1.1 = 0 ∧ next.1.2 = 0)) : AtTurn env target s tag next.2 s₃

/-- Every turn that the call comes to fits. -/
def EntryFits (env : Env) (target : BitVec 16) (s : State) : Prop :=
  ∀ tag source s', AtTurn env target s tag source s' → TurnFits env target tag source s'

section

variable {env : Env} {lo e : Nat} {w : Word} {s s' : State} {target tag : BitVec 16}
  {source : Source}

/-- From a turn on, as long as all turns fit. -/
theorem ends_attributes (hLong : Checked env.sec) (hUnit : env.unit ≠ none)
    (hEntry : e ≤ env.sec.data.length) (hFits : EntryFits env target s') {fuel : Nat}
    (hs : Inside env lo e s) (hEnough : Enough e fuel source s.pos)
    (hAt : AtTurn env target s' tag source s) :
    Ends (attributes env target tag fuel source) (fun _ => Inside env lo e)
      (fun _ => Inside env lo e) s := by
  induction fuel generalizing source s with
  | zero =>
    rcases source with attrs | size
    · exact absurd hEnough (Nat.not_lt_zero _)
    · exact absurd hEnough.2.2.1 (Nat.not_lt_zero _)
  | succ fuel ih =>
    have hTurnFits := hFits _ _ _ hAt
    have hLower : Inside env s.pos e s := ⟨⟨Nat.le_refl _, hs.pos.2⟩, hs.entryPos⟩
    have hNext := ends_nextAttribute hLong hEntry hLower hEnough hTurnFits.codes
    refine ends_bind.2 (hNext.with_result.imp ?_ fun _ _ => Inside.weaken hs.pos.1)
    rintro next t ⟨⟨ht, hRest⟩, hNextRun⟩
    have hHere : Inside env t.pos e t := ⟨⟨Nat.le_refl _, ht.pos.2⟩, ht.entryPos⟩
    have hTurn : Ends (turn env target tag next.1.1 next.1.2) (fun _ => Inside env t.pos e)
        (fun _ => Inside env t.pos e) t :=
      ends_turn hLong hUnit hHere
        (fun hSkip hAttr f hForm => hTurnFits.skips next t f hNextRun hSkip hAttr hForm)
        fun hWanted hTag hAttr hSize hRef =>
          hTurnFits.sibling next t hNextRun hWanted hTag hAttr hSize hRef
    have hLo : lo ≤ t.pos := hs.pos.1.trans ht.pos.1
    refine ends_bind.2 (hTurn.with_result.imp ?_ fun _ _ => Inside.weaken hLo)
    rintro _ t' ⟨ht', hTurnRun⟩
    refine ends_ite (fun _ => ends_pure (ht'.weaken hLo)) fun hMore => ?_
    exact ih (ht'.weaken hLo) (hRest hMore t'.pos ht'.pos.1) (hAt.next hNextRun hTurnRun hMore)

/-- The first turn reads nothing. -/
theorem ends_first (hLong : Checked env.sec) (hUnit : env.unit ≠ none) (hs : Inside env lo e s)
    (children : Bool) :
    Ends (turn env target tag 0 (entryForm children)) (fun _ => Inside env lo e)
      (fun _ => Inside env lo e) s :=
  ends_turn hLong hUnit hs (fun _ hAttr => absurd rfl hAttr) fun _ _ hAttr => by cases hAttr

theorem keeps_skipEntry (n : Nat) : Keeps (Within env lo w e) (skipEntry env n) := by
  induction n with
  | zero => exact keeps_pure _
  | succ n ih => exact (keeps_discard (keeps_scan keeps_readU1)).bind fun _ => ih

theorem ends_readAttributes (hLong : Checked env.sec) (hUnit : env.unit ≠ none)
    (hEntry : e ≤ env.sec.data.length) (hFits : EntryFits env target s') (hs : Inside env lo e s)
    {children : Bool} {fuel : Nat} (hEnough : ∀ pos, s.pos ≤ pos → Enough e fuel source pos)
    (hAt : ∀ t, turn env target tag 0 (entryForm children) s = (.ok ⟨⟩, t) →
      AtTurn env target s' tag source t) :
    Ends (readAttributes env target tag children fuel source) (fun _ => Inside env lo e)
      (fun _ => Inside env lo e) s := by
  have hHere : Inside env s.pos e s := ⟨⟨Nat.le_refl _, hs.pos.2⟩, hs.entryPos⟩
  have hFirst := @ends_first env s.pos e s target tag hLong hUnit hHere children
  refine ends_bind.2 (hFirst.with_result.imp ?_ fun _ _ => Inside.weaken hs.pos.1)
  rintro _ t ⟨ht, hRun⟩
  exact ends_attributes hLong hUnit hEntry hFits (ht.weaken hs.pos.1) (hEnough t.pos ht.pos.1)
    (hAt t hRun)

/-- An entry whose turns all fit is read within the section. -/
theorem readEntry_ends (hLong : Checked env.sec) (hUnit : env.unit ≠ none)
    (hPos : s.pos ≤ env.sec.data.length) (hFits : EntryFits env target s) :
    Ends (readEntry env target) (fun _ s' => s'.pos ≤ env.sec.data.length)
      (fun _ s' => s'.pos ≤ env.sec.data.length) s := by
  have hStart : Within env s.pos s.unitSize s.pos { s with entryPos := s.pos } :=
    ⟨⟨Nat.le_refl _, hPos⟩, rfl, rfl⟩
  refine ends_bind.2 (ends_modify (ends_theUnit_bind hUnit fun u hu => ?_))
  refine ends_ite (fun hVersion => ?_) fun hVersion => ?_
  · refine ends_bind.2 ((keeps_scan keeps_readULEB128 _ hStart).with_result.imp ?_
      fun _ _ ht => ht.pos.2)
    rintro code t ⟨ht, hCode⟩
    refine ends_ite (fun _ => ends_pure ht.pos.2) fun _ => ?_
    rcases hAbbr : (u.abbrevTable[code.toNat]?).join with - | abbr
    · exact ends_raise ht.pos.2
    · refine ends_bind.2 ((ends_readAttributes hLong hUnit hPos hFits ht.inside
        (fun _ _ => Nat.lt_succ_self _) fun t' hFirst =>
          .abbreviation hu hVersion hCode hAbbr hFirst).imp ?_ fun _ _ h => h.pos.2)
      exact fun _ _ h => ends_pure h.pos.2
  · refine ends_bind.2 ((keeps_scan (keeps_readU4 hLong) _ hStart).with_result.imp ?_
      fun _ _ ht => ht.pos.2)
    rintro size t ⟨ht, hSize⟩
    refine ends_ite (fun _ => ?_) fun hMin => ?_
    · exact ends_bind.2 ((keeps_skipEntry (size - 4) t ht).imp
        (fun _ _ h => ends_pure h.pos.2) fun _ _ h => h.pos.2)
    · obtain ⟨pos, hRead, -⟩ := part_eq_ok.1 hSize
      have hMax : size < 2 ^ 32 := readNumber_lt hRead
      refine ends_bind.2 ((keeps_scan (keeps_readU2 hLong) t ht).with_result.imp ?_
        fun _ _ ht => ht.pos.2)
      rintro tag t' ⟨ht', hTag⟩
      have hEnough : ∀ pos, t'.pos ≤ pos → Enough s.pos size (.entry size) pos := by
        intro pos hLater
        have hLo := ht'.pos.1
        exact ⟨by omega, hMax, by omega, by omega⟩
      refine ends_bind.2 ((ends_readAttributes hLong hUnit hPos hFits ht'.inside hEnough
        fun t'' hFirst => .entry hu (Nat.lt_of_not_le hVersion) hSize (Nat.le_of_not_lt hMin) hTag
          hFirst).imp ?_ fun _ _ h => h.pos.2)
      exact fun _ _ h => ends_pure h.pos.2

end

/-! ## Full reading -/

section

variable {env : Env} {lo e : Nat} {w : Word} {s s' : State} {tag : BitVec 16} {source : Source}

/-- Where the size of the unit is known it stays as it is. -/
theorem keeps_visit (hLong : Checked env.sec) (hUnit : env.unit ≠ none) (hSize : w ≠ 0)
    (tag attr form : BitVec 16) : Keeps (Within env lo w e) (visit env tag attr form) := by
  have hData : Keeps (Within env lo w e) (readData env attr form) :=
    keeps_ite (fun _ => keeps_readAttribute hLong attr fun _ _ _ => hUnit) fun _ => keeps_pure _
  have hCheck : Keeps (Within env lo w e) (checkUnit env attr form) := by
    refine keeps_get_bind fun s hs => ends_ite (fun hSibling => ?_) fun _ => ?_
    · exact absurd (hs.unitSize.symm.trans hSibling.2) hSize
    · exact ends_ite (fun _ => ends_raise hs) fun _ => ends_pure hs
  refine hData.bind fun _ => Keeps.bind ?_ fun _ => ?_
  · exact keeps_ite (fun _ => hCheck) fun _ => keeps_pure _
  · exact keeps_modify fun _ hs => ⟨hs.pos, hs.unitSize, hs.entryPos⟩

theorem nextAttribute_abbreviation {attrs : List (BitVec 16 × BitVec 16)}
    {next : (BitVec 16 × BitVec 16) × Source} (hs : Within env lo w e s)
    (h : nextAttribute env (.abbreviation attrs) s = (.ok next, s')) :
    (∃ rest, next.2 = .abbreviation rest) ∧ Within env lo w e s' := by
  rcases attrs with - | ⟨⟨attr, form⟩, attrs⟩
  · cases h
    exact ⟨⟨[], rfl⟩, hs⟩
  · rw [nextAttribute] at h
    split at h
    · obtain ⟨x, t, hScan, h⟩ := bind_eq_ok.1 h
      cases h
      exact ⟨⟨attrs, rfl⟩, (keeps_scan keeps_readULEB128 _ hs).of_ok hScan⟩
    · cases h
      exact ⟨⟨attrs, rfl⟩, hs⟩

theorem AtTurn.full {u : UnitDescriptor} (hLong : Checked env.sec) (hUnit : env.unit = some u)
    (hVersion : 2 ≤ u.version.toNat) (hPos : s.pos ≤ env.sec.data.length) (hSize : s.unitSize ≠ 0)
    (h : AtTurn env 0 s tag source s') :
    (∃ attrs, source = .abbreviation attrs) ∧ Within env 0 s.unitSize s.pos s' := by
  have hSome : env.unit ≠ none := by
    rw [hUnit]
    exact Option.some_ne_none u
  induction h with
  | abbreviation _ _ hCode _ hFirst =>
    have hStart : Within env 0 s.unitSize s.pos { s with entryPos := s.pos } :=
      ⟨⟨Nat.zero_le _, hPos⟩, rfl, rfl⟩
    have hCoded := (keeps_scan keeps_readULEB128 _ hStart).of_ok hCode
    exact ⟨⟨_, rfl⟩, (keeps_visit hLong hSome hSize _ _ _ _ hCoded).of_ok hFirst⟩
  | entry hOther hOld _ _ _ _ =>
    rw [hUnit] at hOther
    cases hOther
    omega
  | @next tag source next s₁ s₂ s₃ _ hNext hTurn _ ih =>
    obtain ⟨⟨attrs, rfl⟩, hs⟩ := ih
    obtain ⟨hSource, hKept⟩ := nextAttribute_abbreviation hs hNext
    exact ⟨hSource, (keeps_visit hLong hSome hSize _ _ _ _ hKept).of_ok hTurn⟩

/-- From DWARF 2 on, an entry of a unit of known size can be read in full. -/
theorem entryFits_full {u : UnitDescriptor} (hLong : Checked env.sec) (hUnit : env.unit = some u)
    (hVersion : 2 ≤ u.version.toNat) (hPos : s.pos ≤ env.sec.data.length)
    (hSize : s.unitSize ≠ 0) : EntryFits env 0 s := by
  intro tag source s' hAt
  obtain ⟨⟨attrs, rfl⟩, hs⟩ := hAt.full hLong hUnit hVersion hPos hSize
  refine ⟨fun size hSource => absurd hSource (by simp),
    fun _ _ _ _ hSkip => absurd hSkip Bool.false_ne_true, ?_⟩
  intro next s₁ hNext _ _ _ hZero
  obtain ⟨-, hKept⟩ := nextAttribute_abbreviation hs hNext
  exact absurd (hKept.unitSize.symm.trans hZero) hSize

end

/-! ## Runs -/

/-- A call of the reader. -/
inductive Call where
  | readU1 | readU2 | readU4 | readU8
  | readULEB128 | readSLEB128 | readU8LEB128 | readS8LEB128
  | readAddressX (size : Nat)
  | readAddress
  | readString
  | read (size : BitVec 32)
  | skip (bytes : BitVec 64)
  | setPos (pos : BitVec 64)
  | readAttribute (attr form : BitVec 16)
  | readEntry (target : BitVec 16)

section

variable (env : Env)

def perform : Call → Io PUnit
  | .readU1 => discard (scan (readU1 env.sec))
  | .readU2 => discard (scan (readU2 env.sec))
  | .readU4 => discard (scan (readU4 env.sec))
  | .readU8 => discard (scan (readU8 env.sec))
  | .readULEB128 => discard (scan (readULEB128 env.sec))
  | .readSLEB128 => discard (scan (readSLEB128 env.sec))
  | .readU8LEB128 => discard (scan (readU8LEB128 env.sec))
  | .readS8LEB128 => discard (scan (readS8LEB128 env.sec))
  | .readAddressX size => discard (readAddressX env size)
  | .readAddress => discard (readAddress env)
  | .readString => discard (scan (readString env.sec))
  | .read size => discard (scan (read env.sec size))
  | .skip bytes => scan (skip env.sec bytes)
  | .setPos pos => scan (setPos env.sec pos)
  | .readAttribute attr form => readAttribute env attr form
  | .readEntry target => discard (readEntry env target)

/-- The state after a call, which can have raised an exception. There is none after an access out
of the section or a failed assertion. -/
def step (s : State) (c : Call) : Option State :=
  match perform env c s with
  | (.error .fault, _) => none
  | (_, s') => some s'

/-- The unit is there for what needs it, and an entry has only turns that fit. -/
def CallFits (s : State) : Call → Prop
  | .readAttribute _ form => UnitKnown env form
  | .readEntry target => env.unit ≠ none ∧ EntryFits env target s
  | _ => True

end

section

variable {env : Env} {s : State}

theorem perform_ends (hLong : Checked env.sec) (hPos : s.pos ≤ env.sec.data.length) (c : Call)
    (hFits : CallFits env s c) :
    Ends (perform env c) (fun _ s' => s'.pos ≤ env.sec.data.length)
      (fun _ s' => s'.pos ≤ env.sec.data.length) s := by
  have hs : Within env 0 s.unitSize s.entryPos s := ⟨⟨Nat.zero_le _, hPos⟩, rfl, rfl⟩
  have hKeeps : ∀ {p : Io PUnit}, Keeps (Within env 0 s.unitSize s.entryPos) p →
      Ends p (fun _ s' => s'.pos ≤ env.sec.data.length)
        (fun _ s' => s'.pos ≤ env.sec.data.length) s := fun h =>
    (h s hs).imp (fun _ _ ht => ht.pos.2) fun _ _ ht => ht.pos.2
  cases c with
  | readU1 => exact hKeeps (keeps_discard (keeps_scan keeps_readU1))
  | readU2 => exact hKeeps (keeps_discard (keeps_scan (keeps_readU2 hLong)))
  | readU4 => exact hKeeps (keeps_discard (keeps_scan (keeps_readU4 hLong)))
  | readU8 => exact hKeeps (keeps_discard (keeps_scan (keeps_readU8 hLong)))
  | readULEB128 | readSLEB128 | readU8LEB128 | readS8LEB128 =>
    exact hKeeps (keeps_discard (keeps_scan (keeps_readLeb _ _ _ _ _)))
  | readAddressX size => exact hKeeps (keeps_discard (keeps_readAddressX hLong size))
  | readAddress => exact hKeeps (keeps_discard (keeps_readAddressX hLong _))
  | readString => exact hKeeps (keeps_discard (keeps_scan keeps_readString))
  | read size => exact hKeeps (keeps_discard (keeps_scan (keeps_read hLong size)))
  | skip bytes => exact hKeeps (keeps_scan (keeps_skip bytes))
  | setPos pos => exact hKeeps (keeps_scan (keeps_setPos pos))
  | readAttribute attr form => exact hKeeps (keeps_readAttribute hLong attr hFits)
  | readEntry target =>
    exact ends_bind.2 ((readEntry_ends hLong hFits.1 hPos hFits.2).mono fun _ _ h => ends_pure h)

theorem step_inside (hLong : Checked env.sec) (hPos : s.pos ≤ env.sec.data.length) (c : Call)
    (hFits : CallFits env s c) :
    ∃ s', step env s c = some s' ∧ s'.pos ≤ env.sec.data.length := by
  have hEnds := perform_ends hLong hPos c hFits
  unfold Attempt.Ends at hEnds
  unfold step
  rcases hRun : perform env c s with ⟨(f | _) | _, s'⟩
  · rw [hRun] at hEnds
    exact ⟨s', rfl, hEnds⟩
  · rw [hRun] at hEnds
    exact hEnds.elim
  · rw [hRun] at hEnds
    exact ⟨s', rfl, hEnds⟩

/-- A section is entered in front of its end. -/
theorem enterSection_ends {offset : BitVec 64} (hOffset : offset.toNat ≠ env.sec.data.length) :
    Ends (enterSection env offset) (fun _ s' => s'.pos ≤ env.sec.data.length) (fun _ _ => True)
      s := by
  refine ends_bind.2 (ends_orRaise (fun _ _ => ?_) fun _ _ => trivial)
  refine ends_ite (fun _ => ends_raise trivial) fun hEnd => ?_
  have hInside : offset.toNat < env.sec.data.length := by omega
  have hSome : env.sec.data ≠ [] := List.ne_nil_of_length_pos (by omega)
  refine ends_bind.2 (ends_modify (ends_bind.2 (ends_ensure hSome ?_)))
  exact ends_bind.2 (ends_get (ends_ensure hInside (Nat.le_of_lt hInside)))

end

/-- A run, from `dio_EnterSection` on, whose steps all fit: each call raises an exception or
returns, and the position is in the section. -/
theorem staysInside (env : Env) (offset : BitVec 64) (s : State) (calls : List Call)
    (hLong : Checked env.sec) (hOffset : offset.toNat ≠ env.sec.data.length)
    (hFits : ∀ s₀, enterSection env offset s = (.ok ⟨⟩, s₀) →
      Meets (step env) (CallFits env) s₀ calls) :
    (∃ f s₀, enterSection env offset s = (.error (.raise f), s₀)) ∨
      ∃ s₀ s', enterSection env offset s = (.ok ⟨⟩, s₀) ∧ run (step env) s₀ calls = some s' ∧
        s'.pos ≤ env.sec.data.length := by
  have hEnter := @enterSection_ends env s offset hOffset
  unfold Attempt.Ends at hEnter
  rcases hRun : enterSection env offset s with ⟨(f | _) | _, s₀⟩
  · exact .inl ⟨f, s₀, rfl⟩
  · rw [hRun] at hEnter
    exact hEnter.elim
  · rw [hRun] at hEnter
    obtain ⟨s', hCalls, hPos⟩ := run_total
      (fun t c hPos hc => step_inside hLong hPos c hc) hEnter (hFits s₀ hRun)
    exact .inr ⟨s₀, s', rfl, hCalls, hPos⟩

/-- A unit with one kind of entry, which has an attribute of one byte. -/
def sampleEnv : Env where
  sec := ⟨some ".debug_info", 0, [1, 5, 0], false, true, .ok ⟨⟩, none, by decide⟩
  unit := some ⟨2, false, 8, 0, [none, some ⟨0x24, false, [(0x0b, 0x0b)]⟩]⟩
  strings _ := .error eof

def sampleState : State := ⟨0, 0, emptyForm, 3, 0, []⟩

theorem staysInside_sample :
    (∃ f s₀, enterSection sampleEnv 0 sampleState = (.error (.raise f), s₀)) ∨
      ∃ s₀ s', enterSection sampleEnv 0 sampleState = (.ok ⟨⟩, s₀) ∧
        run (step sampleEnv) s₀ [.readEntry 0, .readU4, .skip 1] = some s' ∧
          s'.pos ≤ sampleEnv.sec.data.length := by
  have hLong : Checked sampleEnv.sec := by
    unfold Checked
    decide
  refine staysInside sampleEnv 0 sampleState [.readEntry 0, .readU4, .skip 1] hLong (by decide) ?_
  intro s₀ hEnter
  obtain rfl : s₀ = { sampleState with pos := 0, entryPos := 0 } := (Prod.mk.inj hEnter).2.symm
  refine ⟨⟨Option.some_ne_none _, ?_⟩,
    fun _ _ => ⟨trivial, fun _ _ => ⟨trivial, fun _ _ => trivial⟩⟩⟩
  exact entryFits_full hLong rfl (by decide) (by decide) (by decide)

/-- The same entry, cut off behind its code. -/
def shortEnv : Env :=
  { sampleEnv with sec := ⟨some ".debug_info", 0, [1], false, true, .ok ⟨⟩, none, by decide⟩ }

/-- The offset is not behind the end, but an assertion fails; and an attribute that nobody asks for
is skipped though it is not there. -/
theorem not_staysInside :
    (1 ≤ shortEnv.sec.data.length ∧ (enterSection shortEnv 1 sampleState).1 = .error .fault) ∧
      (readEntry shortEnv 0x3f sampleState).1 = .ok true ∧
        shortEnv.sec.data.length < (readEntry shortEnv 0x3f sampleState).2.pos :=
  ⟨⟨by decide, rfl⟩, rfl, by decide⟩

end TcfAgent.DwarfIo
