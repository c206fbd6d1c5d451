import TcfAgent.Services.LineNumbers
import TcfAgent.Services.LineProgram

/-!
# The rows of a line number program

`load_line_numbers_v2` against the state machine of DWARF.

`Fits` is what an instruction must find in the registers for the state to go on with them: the copy
opcode does not reset the discriminator, an advance of the address leaves `op_index` alone, an
unknown standard opcode ends the program with an exception, and the fields of a state have sizes.

Main results:

* `did_execute`    — one instruction that fits: the row it appends, and the registers afterwards;
* `run_program`    — a program whose instructions all fit;
* `rows_eq_matrix` — with its header: the rows that are given to `add_state` are the matrix.
-/

namespace TcfAgent.LineNumbers

open TcfAgent.Lib hiding raise fault ensure orFault orRaise bind_of_ok bind_of_error bind_eq_ok
open TcfAgent.Lib.Attempt TcfAgent.Location TcfAgent.DwarfIo
open TcfAgent.LineProgram hiding Spelled

/-! ## States and registers -/

/-- The row that a state is. -/
def view (c : LineNumbersState) : Registers where
  address       := c.address
  opIndex       := c.opIndex.toNat
  file          := c.file.toNat
  line          := c.line.toNat
  column        := c.column.toNat
  isStmt        := c.flags.isStmt
  basicBlock    := c.flags.basicBlock
  endSequence   := c.flags.endSequence
  prologueEnd   := c.flags.prologueEnd
  epilogueBegin := c.flags.epilogueBegin
  isa           := c.isa.toNat
  discriminator := c.discriminator.toNat

/-- The state has the registers, as far as they fit. -/
structure Agrees (c : LineNumbersState) (r : Registers) : Prop where
  address       : c.address = r.address
  opIndex       : c.opIndex.toNat = r.opIndex
  file          : c.file = BitVec.ofNat 32 r.file
  line          : c.line = BitVec.ofInt 32 r.line
  column        : c.column = BitVec.ofNat 16 r.column
  isStmt        : c.flags.isStmt = r.isStmt
  basicBlock    : c.flags.basicBlock = r.basicBlock
  endSequence   : c.flags.endSequence = r.endSequence
  prologueEnd   : c.flags.prologueEnd = r.prologueEnd
  epilogueBegin : c.flags.epilogueBegin = r.epilogueBegin
  isa           : c.isa = BitVec.ofNat 8 r.isa
  discriminator : c.discriminator = BitVec.ofNat 8 r.discriminator

/-- The fields of a state have room for the row. -/
structure RowFits (r : Registers) : Prop where
  file          : r.file < 2 ^ 32
  line          : 0 ≤ r.line ∧ r.line < 2 ^ 32
  column        : r.column < 2 ^ 16
  isa           : r.isa < 2 ^ 8
  discriminator : r.discriminator < 2 ^ 8

theorem Agrees.view_eq {c : LineNumbersState} {r : Registers} (h : Agrees c r) (hFits : RowFits r) :
    view c = r := by
  have hLine : ((BitVec.ofInt 32 r.line).toNat : Int) = r.line := by
    rw [BitVec.toNat_ofInt, Int.toNat_of_nonneg (by omega)]
    exact Int.emod_eq_of_lt hFits.line.1 hFits.line.2
  unfold view
  rw [h.address, h.opIndex, h.file, h.line, h.column, h.isStmt, h.basicBlock, h.endSequence,
    h.prologueEnd, h.epilogueBegin, h.isa, h.discriminator, hLine, BitVec.toNat_ofNat,
    BitVec.toNat_ofNat, BitVec.toNat_ofNat, BitVec.toNat_ofNat, Nat.mod_eq_of_lt hFits.file,
    Nat.mod_eq_of_lt hFits.column, Nat.mod_eq_of_lt hFits.isa, Nat.mod_eq_of_lt hFits.discriminator]

/-- The header that was read. -/
structure Matches (h : Header) (p : Prologue) : Prop where
  minInstructionLength : h.minInstructionLength = p.minInstructionLength
  maxOps               : h.maxOps = p.maxOps
  isStmtDefault        : h.isStmtDefault = decide (p.defaultIsStmt ≠ 0)
  lineBase             : h.lineBase = signedBase p
  lineRange            : h.lineRange = p.lineRange
  opcodeBase           : h.opcodeBase = p.opcodeBase

theorem Matches.start {h : Header} {p : Prologue} (hMatches : Matches h p) :
    Agrees h.start (LineProgram.start p) := by
  refine ⟨rfl, rfl, rfl, rfl, rfl, ?_, rfl, rfl, rfl, rfl, rfl, rfl⟩
  exact hMatches.isStmtDefault

/-! ## What fits -/

/-- Address and operation advance together, as if there were one operation in an instruction. -/
def AdvanceFits (p : Prologue) (r : Registers) (n : Nat) : Prop :=
  (r.opIndex + n) % p.maxOps.toNat = r.opIndex ∧
    BitVec.ofNat 64 (p.minInstructionLength.toNat * ((r.opIndex + n) / p.maxOps.toNat)) =
      BitVec.ofNat 64 (p.minInstructionLength.toNat * n)

/-- What the registers must be for the instruction. One of an unknown standard opcode never fits. -/
def Fits (p : Prologue) (r : Registers) : Insn → Prop
  | .special adjusted => RowFits (specialRow p adjusted r)
  | .copy => RowFits r ∧ r.discriminator = 0
  | .advancePc n => AdvanceFits p r n
  | .constAddPc => AdvanceFits p r (constAdvance p)
  | .fixedAdvancePc _ => r.opIndex = 0
  | .unknown => False
  | .extended size .endSequence => size < 2 ^ 32 ∧ RowFits r
  | .extended size (.setAddress _) => size < 2 ^ 32 ∧ r.opIndex = 0
  | .extended size _ => size < 2 ^ 32
  | _ => True

/-- Every instruction fits where it is executed. -/
def AllFit (p : Prologue) : Registers → List Insn → Prop
  | _, [] => True
  | r, i :: is => Fits p r i ∧ AllFit p (LineProgram.step p r i).2 is

/-! ## Reading -/

section

variable {env : Env} {h : Header} {p : Prologue} {s : LineState} {t : DwarfIo.State} {α : Type}
  {c : LineNumbersState} {r r' : Registers} {rows rows' : List Registers}

def forward (s : LineState) (n : Nat) : LineState := { s with io := moved s.io n }

variable {bytes : List UInt8}

theorem io_of_scans {q : DwarfIo.Scan α} {a : α} (hScans : Scans env.sec q bytes a)
    (hHere : Here env.sec s.io.pos bytes) : io (scan q) s = (.ok a, forward s bytes.length) :=
  part_of_ok (scan_of_ok (hScans _ hHere))

theorem getPos_run (s : LineState) : getPos s = (.ok s.io.pos, s) := rfl

theorem forward_forward (s : LineState) (n m : Nat) : forward (forward s n) m = forward s
    (n + m) := by
  unfold forward moved
  rw [Nat.add_assoc]

theorem moved_moved (t : DwarfIo.State) (n m : Nat) : moved (moved t n) m = moved t (n + m) := by
  unfold moved
  rw [Nat.add_assoc]

/-! ## Instructions -/

/-- The program returns, at `t`, with the registers, and with the rows added. -/
def Did (q : Line PUnit) (s : LineState) (t : DwarfIo.State) (res : List Registers × Registers) :
    Prop :=
  ∃ s', q s = (.ok ⟨⟩, s') ∧ s'.io = t ∧ Agrees s'.state res.2 ∧
    s'.given.map view = s.given.map view ++ res.1

theorem did_onState {f : LineNumbersState → LineNumbersState} (hAgrees : Agrees (f s.state) r) :
    Did (onState f) s s.io ([], r) := ⟨_, rfl, rfl, hAgrees, (List.append_nil _).symm⟩

theorem Did.after {q : α → Line PUnit} {first : Line α} {a : α} {s₁ : LineState}
    {res : List Registers × Registers} (hFirst : first s = (.ok a, s₁))
    (hGiven : s₁.given = s.given) (hNext : Did (q a) s₁ t res) : Did (first >>= q) s t res := by
  obtain ⟨s', hRun, hIo, hAgrees, hRows⟩ := hNext
  exact ⟨s', (bind_of_ok hFirst).trans hRun, hIo, hAgrees, by rw [hRows, hGiven]⟩

/-- A row is appended. -/
theorem did_addState {f : LineNumbersState → LineNumbersState} (hRow : view s.state = r)
    (hAgrees : Agrees (f s.state) r') :
    Did (do addState; onState f) s s.io ([r], r') := by
  refine ⟨_, rfl, rfl, hAgrees, ?_⟩
  show (s.given ++ [s.state]).map view = _
  rw [List.map_append, ← hRow]
  rfl

theorem agrees_afterRow (hAgrees : Agrees c r) :
    Agrees { c with flags := c.flags.afterRow, discriminator := 0 } r.afterRow :=
  { hAgrees with
    basicBlock := rfl
    prologueEnd := rfl
    epilogueBegin := rfl
    discriminator := rfl }

theorem ofInt_add_ofInt (w : Nat) (a b : Int) :
    BitVec.ofInt w a + BitVec.ofInt w b = BitVec.ofInt w (a + b) := (BitVec.ofInt_add a b).symm

/-- What a special opcode makes of the state. -/
theorem agrees_special (hMatches : Matches h p) (hAgrees : Agrees c r) (adjusted : Nat) :
    Agrees { c with
      line := c.line + BitVec.ofInt 32 ((adjusted % h.lineRange.toNat : Nat) + h.lineBase)
      address := c.address + BitVec.ofNat 64
        ((c.opIndex.toNat + adjusted / h.lineRange.toNat) / h.maxOps.toNat *
          h.minInstructionLength.toNat)
      opIndex := BitVec.ofNat 8
        ((c.opIndex.toNat + adjusted / h.lineRange.toNat) % h.maxOps.toNat) }
      (specialRow p adjusted r) := by
  have hOps : 0 < p.maxOps.toNat := Nat.pos_of_ne_zero fun hZero =>
    p.maxOpsSome (UInt8.toNat_inj.1 hZero)
  have hSmall := p.maxOps.toNat_lt
  rw [hMatches.lineRange, hMatches.lineBase, hMatches.maxOps, hMatches.minInstructionLength,
    hAgrees.opIndex, Nat.mul_comm _ p.minInstructionLength.toNat]
  refine { hAgrees with address := ?_, opIndex := ?_, line := ?_ }
  · exact congrArg (· + _) hAgrees.address
  · show (BitVec.ofNat 8 _).toNat = _
    rw [BitVec.toNat_ofNat, Nat.mod_eq_of_lt ((Nat.mod_lt _ hOps).trans hSmall)]
    rfl
  · show c.line + _ = BitVec.ofInt 32 (r.line + _)
    rw [hAgrees.line, ofInt_add_ofInt, Int.add_comm (signedBase p)]

theorem setWidth_ofNat {w v : Nat} (h : w ≤ v) (n : Nat) :
    (BitVec.ofNat v n).setWidth w = BitVec.ofNat w n := BitVec.setWidth_ofNat_of_le h n

theorem divide_run {a b : Nat} (hb : b ≠ 0) : divide a b s = (.ok (a / b, a % b), s) := by
  have hEnsure : (ensure (b ≠ 0) : Line Unit) s = (.ok (), s) := by
    rw [ensure, if_pos hb]
    rfl
  rw [divide, bind_of_ok hEnsure]
  rfl

theorem did_special (hMatches : Matches h p) (hAgrees : Agrees s.state r) (opcode : UInt8)
    (hFits : RowFits (specialRow p (opcode.toNat - p.opcodeBase.toNat) r)) :
    Did (special h opcode) s s.io
      (LineProgram.step p r (.special (opcode.toNat - p.opcodeBase.toNat))) := by
  have hRange : h.lineRange.toNat ≠ 0 := by
    rw [hMatches.lineRange]
    exact fun hZero => p.lineRangeSome (UInt8.toNat_inj.1 hZero)
  have hOps : h.maxOps.toNat ≠ 0 := by
    rw [hMatches.maxOps]
    exact fun hZero => p.maxOpsSome (UInt8.toNat_inj.1 hZero)
  have hNext := agrees_special hMatches hAgrees (opcode.toNat - p.opcodeBase.toNat)
  refine Did.after (divide_run hRange) rfl
    (Did.after (get_run s) rfl (Did.after (divide_run hOps) rfl
    (Did.after (modify_run _ s) rfl ?_)))
  rw [hMatches.opcodeBase]
  exact did_addState (hNext.view_eq hFits) (agrees_afterRow hNext)

theorem agrees_advance {n : Nat} {w : Word} (hMatches : Matches h p) (hAgrees : Agrees c r)
    (hFits : AdvanceFits p r n)
    (hAddress : w = BitVec.ofNat 64 (n * h.minInstructionLength.toNat)) :
    Agrees { c with address := c.address + w } (advance p n r) := by
  refine { hAgrees with address := ?_, opIndex := ?_ }
  · show c.address + w = r.address + _
    rw [hAgrees.address, hAddress, hFits.2, hMatches.minInstructionLength, Nat.mul_comm]
  · exact hAgrees.opIndex.trans hFits.1.symm

/-- The operand is read, and changes the state. -/
theorem did_operand {q : DwarfIo.Scan α} {a : α}
    {f : α → LineNumbersState → LineNumbersState} (hScans : Scans env.sec q bytes a)
    (hHere : Here env.sec s.io.pos bytes) (hAgrees : Agrees (f a s.state) r) :
    Did (do
      let n ← io (scan q)
      onState (f n)) s (moved s.io bytes.length) ([], r) :=
  Did.after (io_of_scans hScans hHere) rfl (did_onState hAgrees)

variable {i : Insn}

theorem did_standard {opcode : UInt8} (hMatches : Matches h p)
    (hAgrees : Agrees s.state r) (hOperands : Operands env p opcode i s.io t)
    (hFits : Fits p r i) : Did (standard env h opcode) s t (LineProgram.step p r i) := by
  cases hOperands with
  | copy =>
    refine did_addState (hAgrees.view_eq hFits.1) { hAgrees with
      basicBlock := rfl, prologueEnd := rfl, epilogueBegin := rfl, discriminator := ?_ }
    exact hAgrees.discriminator.trans (congrArg _ hFits.2)
  | advancePc _ n hHere =>
    refine did_operand (scans_u8leb n.ends) hHere (agrees_advance hMatches hAgrees hFits ?_)
    exact (BitVec.ofNat_mul _ _).symm
  | advanceLine _ n hHere =>
    refine did_operand (scans_sleb n.ends) hHere ?_
    refine { hAgrees with line := ?_ }
    show s.state.line + _ = _
    rw [hAgrees.line, ofInt_add_ofInt]
  | setFile _ n hHere =>
    refine did_operand (scans_uleb n.ends) hHere ?_
    exact { hAgrees with file := rfl }
  | setColumn _ n hHere =>
    refine did_operand (scans_uleb n.ends) hHere ?_
    exact { hAgrees with column := @setWidth_ofNat 16 32 (by decide) _ }
  | negateStmt =>
    show Did (onState fun c => { c with flags := { c.flags with isStmt := !c.flags.isStmt } }) s
      s.io ([], _)
    exact did_onState { hAgrees with isStmt := congrArg not hAgrees.isStmt }
  | setBasicBlock =>
    show Did (onState fun c => { c with flags := { c.flags with basicBlock := true } }) s
      s.io ([], _)
    exact did_onState { hAgrees with basicBlock := rfl }
  | constAddPc =>
    have hRange : h.lineRange.toNat ≠ 0 := by
      rw [hMatches.lineRange]
      exact fun hZero => p.lineRangeSome (UInt8.toNat_inj.1 hZero)
    refine Did.after (divide_run hRange) rfl
      (did_onState (agrees_advance hMatches hAgrees hFits ?_))
    rw [hMatches.opcodeBase, hMatches.lineRange]
    rfl
  | fixedAdvancePc _ _ n sec hRead =>
    refine Did.after (part_of_ok hRead) rfl (did_onState { hAgrees with
      address := ?_, opIndex := hAgrees.opIndex.trans hFits })
    exact congrArg (· + n) hAgrees.address
  | setPrologueEnd =>
    show Did (onState fun c => { c with flags := { c.flags with prologueEnd := true } }) s
      s.io ([], _)
    exact did_onState { hAgrees with prologueEnd := rfl }
  | setEpilogueBegin =>
    show Did (onState fun c => { c with flags := { c.flags with epilogueBegin := true } }) s
      s.io ([], _)
    exact did_onState { hAgrees with epilogueBegin := rfl }
  | setIsa _ n hHere =>
    refine did_operand (scans_uleb n.ends) hHere ?_
    exact { hAgrees with isa := @setWidth_ofNat 8 32 (by decide) _ }
  | unknown => exact hFits.elim

/-- The position after a file entry; only the table of files is changed. -/
theorem readFile_run (f : FileEntry) (name : Option Nat)
    (hHere : Here env.sec s.io.pos (f.dir.raw ++ (f.modTime.raw ++ f.size.raw))) :
    ∃ u, readFile env name s =
      (.ok ⟨⟩, { forward s
        (f.dir.raw ++ (f.modTime.raw ++ f.size.raw)).length with unit := u }) := by
  obtain ⟨hDir, hRest⟩ := here_append.1 hHere
  obtain ⟨hTime, hSize⟩ := here_append.1 hRest
  have hFirst := @io_of_scans env s _ _ _ _ (scans_uleb f.dir.ends) hDir
  have hSecond := @io_of_scans env (forward s f.dir.raw.length) _ _ _ _ (scans_uleb f.modTime.ends)
    hTime
  have hThird :=
    @io_of_scans env (forward (forward s f.dir.raw.length) f.modTime.raw.length) _ _ _ _
    (scans_uleb f.size.ends) hSize
  rw [readFile, readULEB128, bind_of_ok hFirst, bind_of_ok hSecond, bind_of_ok hThird,
    forward_forward, forward_forward, List.length_append, List.length_append, ← Nat.add_assoc]
  exact ⟨_, rfl⟩

theorem readString_run {chars : List UInt8} (hChars : 0 ∉ chars)
    (hHere : Here env.sec s.io.pos (chars ++ [0])) :
    readString env s = (.ok (if chars.length % 2 ^ 32 = 0 then none else some s.io.pos),
      forward s (chars.length + 1)) := by
  have hScan : scan (DwarfIo.readString env.sec) s.io =
      (.ok (if chars.length % 2 ^ 32 = 0 then none else some s.io.pos),
        moved s.io (chars.length + 1)) := scan_of_ok (string_eq hChars hHere)
  show io (scan (DwarfIo.readString env.sec)) s = _
  exact part_of_ok hScan

theorem did_io {q : Io α} {f : α → LineNumbersState → LineNumbersState} {a : α}
    (hRun : q s.io = (.ok a, t)) (hAgrees : Agrees (f a s.state) r) :
    Did (do
      let n ← io q
      onState (f n)) s t ([], r) :=
  Did.after (part_of_ok hRun) rfl (did_onState hAgrees)

variable {code : UInt8} {op : ExtendedOp}

theorem did_extendedBody {size : Nat} {opSize : BitVec 32}
    (hMatches : Matches h p) (hAgrees : Agrees s.state r)
    (hOperands : ExtendedOperands env code op s.io t) (hPos : s.io.pos ≤ env.sec.data.length)
    (hSize : opSize.toNat = size) (hEnd : t.pos + 1 = s.io.pos + size)
    (hFits : Fits p r (.extended size op)) :
    Did (extendedBody env h opSize code) s t (LineProgram.step p r (.extended size op)) := by
  cases hOperands with
  | endSequence =>
    have hRow : Agrees { s.state with flags := { s.state.flags with endSequence := true } }
        { r with endSequence := true } := { hAgrees with endSequence := rfl }
    have hRowFits : RowFits { r with endSequence := true } := { hFits.2 with }
    refine Did.after (modify_run _ s) rfl ?_
    exact did_addState (hRow.view_eq hRowFits) hMatches.start
  | setAddress _ _ address sec hRead =>
    refine did_io hRead { hAgrees with address := rfl, opIndex := ?_ }
    exact hAgrees.opIndex.trans hFits.2
  | defineFile _ f hHere =>
    obtain ⟨hName, hRest⟩ := here_append.1 hHere
    have hString := readString_run f.name.noZero hName
    have hLength : f.name.bytes.length = f.name.chars.length + 1 := by simp [Name.bytes]
    rw [hLength] at hRest
    obtain ⟨u, hFile⟩ := @readFile_run env (forward s (f.name.chars.length + 1)) f
      (if f.name.chars.length % 2 ^ 32 = 0 then none else some s.io.pos) hRest
    rw [forward_forward] at hFile
    refine ⟨_, (bind_of_ok hString).trans hFile, ?_, hAgrees, (List.append_nil _).symm⟩
    have hTotal : f.bytes.length =
        f.name.chars.length + 1 + (f.dir.raw ++ (f.modTime.raw ++ f.size.raw)).length := by
      rw [FileEntry.bytes, List.length_append, hLength]
    rw [hTotal]
    rfl
  | setDiscriminator _ n hHere =>
    refine did_operand (scans_uleb n.ends) hHere ?_
    exact { hAgrees with discriminator := @setWidth_ofNat 8 32 (by decide) _ }
  | unknown _ _ bytes hCode hHere =>
    have hLength := List.IsPrefix.length_le hHere
    rw [List.length_drop] at hLength
    have hCount : opSize.toNat = bytes.length + 1 := by
      have hMoved : (moved s.io bytes.length).pos = s.io.pos + bytes.length := rfl
      omega
    have hLess : (opSize - 1).toNat = bytes.length := by
      rw [BitVec.toNat_sub_of_le (by simp [BitVec.le_def]; omega), hCount]
      rfl
    have hSkip : skip env.sec (BitVec.ofNat 64 (opSize - 1).toNat) s.io.pos =
        (.ok ⟨⟩, s.io.pos + bytes.length) := by
      refine skip_eq ?_ (by omega)
      rw [hLess, BitVec.toNat_ofNat]
      have := env.sec.size_lt
      omega
    have hRun : io (scan (skip env.sec (BitVec.ofNat 64 (opSize - 1).toNat))) s =
        (.ok ⟨⟩, forward s bytes.length) := part_of_ok (scan_of_ok hSkip)
    rw [extendedBody, if_neg hCode.2.2.1, if_neg hCode.1, if_neg hCode.2.1, if_neg hCode.2.2.2]
    exact ⟨_, hRun, rfl, hAgrees, (List.append_nil _).symm⟩

/-! ## Positions -/

theorem nextBytes_end {sec : Section} {n pos pos' : Nat}
    (hPos : pos ≤ sec.data.length) (hRun : nextBytes sec n pos = (.ok bytes, pos')) :
    pos' = pos + n ∧ pos' ≤ sec.data.length := by
  induction n generalizing pos pos' bytes with
  | zero =>
    cases hRun
    exact ⟨rfl, hPos⟩
  | succ n ih =>
    obtain ⟨b, pos₁, hByte, hRun⟩ := bind_eq_ok.1 hRun
    obtain ⟨bs, pos₂, hRest, hRun⟩ := bind_eq_ok.1 hRun
    cases hRun
    by_cases hHere : pos < sec.data.length
    · rw [nextByte_eq hHere] at hByte
      cases hByte
      have hNext := ih hHere hRest
      omega
    · rw [nextByte, bind_of_ok (get_run pos), List.getElem?_eq_none (by omega)] at hByte
      cases hByte

theorem readNumber_end {sec : Section} {n pos pos' x : Nat} (hPos : pos ≤ sec.data.length)
    (hRun : readNumber sec n pos = (.ok x, pos')) : pos' = pos + n ∧ pos' ≤ sec.data.length := by
  obtain ⟨u, pos₁, hCheck, hRun⟩ := bind_eq_ok.1 hRun
  obtain ⟨bytes, pos₂, hBytes, hRun⟩ := bind_eq_ok.1 hRun
  have hSame : pos₁ = pos := by
    obtain ⟨p, pos₀, hGet, hCheck⟩ := bind_eq_ok.1 hCheck
    cases hGet
    split at hCheck
    · cases hCheck
    · cases hCheck
      rfl
  cases hRun
  exact nextBytes_end hPos (hSame ▸ hBytes)

/-- An address is read behind where the reader was. -/
theorem readAddressX_end {size : Nat} {s s' : DwarfIo.State} {x : Word × Option Nat}
    (hPos : s.pos ≤ env.sec.data.length) (hRun : readAddressX env size s = (.ok x, s')) :
    s.pos ≤ s'.pos ∧ s'.pos ≤ env.sec.data.length := by
  obtain ⟨s₀, s₁, hGet, hRun⟩ := bind_eq_ok.1 hRun
  cases hGet
  split at hRun
  · obtain ⟨n, s₂, hNumber, hRun⟩ := bind_eq_ok.1 hRun
    obtain ⟨pos, hScan, rfl⟩ := part_eq_ok.1 hNumber
    have hEnd := readNumber_end hPos hScan
    have hWithin : Within env s.pos s.unitSize s.entryPos { s with pos := pos } :=
      ⟨⟨by show s.pos ≤ pos; omega, hEnd.2⟩, rfl, rfl⟩
    exact ((keeps_relocate _ _ _ _ hWithin).of_ok hRun).pos
  · cases hRun

theorem moved_le {s : DwarfIo.State} (hPos : s.pos ≤ env.sec.data.length)
    (hHere : Here env.sec s.pos bytes) : (moved s bytes.length).pos ≤ env.sec.data.length := by
  have hLength := List.IsPrefix.length_le hHere
  rw [List.length_drop] at hLength
  show s.pos + bytes.length ≤ _
  omega

theorem operands_end {opcode : UInt8} {s : DwarfIo.State}
    (hPos : s.pos ≤ env.sec.data.length) (hOperands : Operands env p opcode i s t) :
    s.pos ≤ t.pos ∧ t.pos ≤ env.sec.data.length := by
  cases hOperands with
  | copy | negateStmt | setBasicBlock | constAddPc | setPrologueEnd | setEpilogueBegin =>
    exact ⟨Nat.le_refl _, hPos⟩
  | fixedAdvancePc _ _ n sec hRead => exact readAddressX_end hPos hRead
  | advancePc _ n hHere => exact ⟨Nat.le_add_right _ _, moved_le hPos hHere⟩
  | advanceLine _ n hHere => exact ⟨Nat.le_add_right _ _, moved_le hPos hHere⟩
  | setFile _ n hHere => exact ⟨Nat.le_add_right _ _, moved_le hPos hHere⟩
  | setColumn _ n hHere => exact ⟨Nat.le_add_right _ _, moved_le hPos hHere⟩
  | setIsa _ n hHere => exact ⟨Nat.le_add_right _ _, moved_le hPos hHere⟩
  | unknown _ _ _ args _ _ _ hHere => exact ⟨Nat.le_add_right _ _, moved_le hPos hHere⟩

theorem extendedOperands_end {s : DwarfIo.State}
    (hPos : s.pos ≤ env.sec.data.length) (hOperands : ExtendedOperands env code op s t) :
    t.pos ≤ env.sec.data.length := by
  cases hOperands with
  | endSequence => exact hPos
  | setAddress _ _ address sec hRead => exact (readAddressX_end hPos hRead).2
  | defineFile _ f hHere => exact moved_le hPos hHere
  | setDiscriminator _ n hHere => exact moved_le hPos hHere
  | unknown _ _ bytes _ hHere => exact moved_le hPos hHere

theorem spelled_end {s : DwarfIo.State} (hSpelled : LineProgram.Spelled env p i s t) :
    s.pos < t.pos ∧ t.pos ≤ env.sec.data.length := by
  cases hSpelled with
  | special _ opcode _ hHere =>
    have hEnd := hHere.end_le (List.cons_ne_nil _ _)
    exact ⟨Nat.lt_succ_self _, hEnd⟩
  | standard _ _ opcode _ _ hHere hOperands =>
    have hEnd := hHere.end_le (List.cons_ne_nil _ _)
    have hAfter := operands_end (s := moved s 1) hEnd hOperands
    exact ⟨hAfter.1, hAfter.2⟩
  | extended _ _ size code op hHere hOperands hSize =>
    have hEnd := hHere.end_le (List.cons_ne_nil _ _)
    rw [List.length_cons, List.length_append, List.length_singleton, Nat.add_comm] at hEnd
    refine ⟨by omega, extendedOperands_end ?_ hOperands⟩
    show s.pos + _ ≤ _
    omega

variable {is : List Insn}

theorem spelledProgram_le {s : DwarfIo.State} (hSpelled : SpelledProgram env p is s t) :
    s.pos ≤ t.pos := by
  induction hSpelled with
  | nil => exact Nat.le_refl _
  | cons hFirst _ ih => exact Nat.le_of_lt ((spelled_end hFirst).1.trans_le ih)

/-! ## Runs -/

theorem Did.then {q q' : Line PUnit} {res : List Registers × Registers} (hDid : Did q s t res)
    (hNext : ∀ s', s'.io = t → q' s' = (.ok ⟨⟩, s')) : Did (do q; q') s t res := by
  obtain ⟨s', hRun, hIo, hRest⟩ := hDid
  exact ⟨s', (bind_of_ok hRun).trans (hNext s' hIo), hIo, hRest⟩

theorem did_extended {size : Leb} (hMatches : Matches h p)
    (hAgrees : Agrees s.state r) (hHere : Here env.sec s.io.pos (size.raw ++ [code]))
    (hOperands : ExtendedOperands env code op (moved s.io (size.raw.length + 1)) t)
    (hSize : t.pos = s.io.pos + size.raw.length + Leb128.value size.raw)
    (hFits : Fits p r (.extended (Leb128.value size.raw) op)) :
    Did (extended env h) s t (LineProgram.step p r (.extended (Leb128.value size.raw) op)) := by
  have hSmall : Leb128.value size.raw < 2 ^ 32 := by
    cases op with
    | endSequence => exact hFits.1
    | setAddress address => exact hFits.1
    | defineFile | setDiscriminator n | unknown => exact hFits
  have hOpSize : (BitVec.ofNat 32 (Leb128.value size.raw)).toNat = Leb128.value size.raw := by
    rw [BitVec.toNat_ofNat, Nat.mod_eq_of_lt hSmall]
  have hAfter : s.io.pos + (size.raw.length + 1) ≤ env.sec.data.length := by
    have hEnd := hHere.end_le (List.append_ne_nil_of_right_ne_nil _ (List.cons_ne_nil _ _))
    rwa [List.length_append] at hEnd
  have hLong := env.sec.size_lt
  have hLast := extendedOperands_end (s := moved s.io (size.raw.length + 1)) hAfter hOperands
  obtain ⟨hRaw, hCode⟩ := here_append.1 hHere
  refine Did.after (io_of_scans (scans_uleb size.ends) hRaw) rfl (Did.after (getPos_run _) rfl
    (Did.after (io_of_scans (scans_u1 code) hCode) rfl ?_))
  rw [forward_forward]
  have hBody := @did_extendedBody env h p (forward s (size.raw.length + 1)) t r code op _ _ hMatches
    hAgrees hOperands hAfter hOpSize
  refine (hBody ?_ hFits).then fun s' hIo => ?_
  · show t.pos + 1 = s.io.pos + (size.raw.length + 1) + _
    omega
  · have hPos : s'.io.pos = u8 (s.io.pos + size.raw.length +
        (BitVec.ofNat 32 (Leb128.value size.raw)).toNat) := by
      rw [hOpSize, ← hSize, hIo, u8_of_lt (by omega)]
    show (if s'.io.pos = u8 (s.io.pos + size.raw.length +
      (BitVec.ofNat 32 (Leb128.value size.raw)).toNat) then pure ⟨⟩ else _ : Line PUnit) s' = _
    rw [if_pos hPos]
    rfl

/-- One instruction. -/
theorem did_execute (hMatches : Matches h p) (hAgrees : Agrees s.state r)
    (hSpelled : LineProgram.Spelled env p i s.io t) (hFits : Fits p r i) :
    Did (execute env h) s t (LineProgram.step p r i) := by
  cases hSpelled with
  | special _ opcode hOpcode hHere =>
    refine Did.after (io_of_scans (scans_u1 opcode) hHere) rfl ?_
    rw [hMatches.opcodeBase, if_pos hOpcode]
    exact did_special (s := forward s 1) hMatches hAgrees opcode hFits
  | standard _ _ opcode _ hOpcode hHere hOperands =>
    have hSome : opcode ≠ 0 := by
      rintro rfl
      cases hOperands with
      | unknown _ _ _ _ hOpcode => exact absurd hOpcode (by decide)
    refine Did.after (io_of_scans (scans_u1 opcode) hHere) rfl ?_
    rw [hMatches.opcodeBase, if_neg (by simpa using hOpcode), if_neg hSome]
    exact did_standard hMatches hAgrees hOperands hFits
  | extended _ _ size code op hHere hOperands hSize =>
    have hBase : ¬ p.opcodeBase ≤ 0 := fun hLe => p.opcodeBaseSome (by
      refine UInt8.toNat_inj.1 (Nat.le_zero.1 ?_)
      exact UInt8.le_iff_toNat_le.1 hLe)
    obtain ⟨hZero, hRest⟩ := here_cons.1 hHere
    refine Did.after (io_of_scans (scans_u1 0) hZero) rfl ?_
    rw [hMatches.opcodeBase, if_neg hBase, if_pos rfl]
    refine did_extended hMatches hAgrees hRest ?_ ?_ hFits
    · show ExtendedOperands env code op (moved (moved s.io 1) _) t
      rw [moved_moved]
      exact hOperands
    · rw [hSize]
      exact congrArg (· + _) (Nat.add_assoc _ _ _).symm

/-- Where the program is, with what is to come. -/
def Running (env : Env) (p : Prologue) (last : DwarfIo.State) (rows : List Registers)
    (is : List Insn) (s : LineState) : Prop :=
  ∃ r, Agrees s.state r ∧ AllFit p r is ∧ SpelledProgram env p is s.io last ∧
    s.given.map view ++ matrix p r is = rows

variable {last : DwarfIo.State}

theorem running_next (hMatches : Matches h p)
    (hRunning : Running env p last rows (i :: is) s) :
    ∃ s', nextOpcode env h last.pos s = (.ok (.inl ⟨⟩), s') ∧ Running env p last rows is s' := by
  obtain ⟨r, hAgrees, ⟨hFits, hAll⟩, hSpelled, hRows⟩ := hRunning
  cases hSpelled with
  | cons hFirst hRest =>
    obtain ⟨s', hRun, rfl, hAgrees', hGiven⟩ := did_execute hMatches hAgrees hFirst hFits
    have hLess : s.io.pos < last.pos := (spelled_end hFirst).1.trans_le (spelledProgram_le hRest)
    refine ⟨s', ?_, _, hAgrees', hAll, hRest, ?_⟩
    · rw [nextOpcode, bind_of_ok (getPos_run s), if_pos hLess, bind_of_ok hRun]
      rfl
    · rw [hGiven, List.append_assoc]
      exact hRows

theorem running_last (hRunning : Running env p last rows [] s) :
    nextOpcode env h last.pos s = (.ok (.inr ⟨⟩), s) ∧ s.given.map view = rows := by
  obtain ⟨r, -, -, hSpelled, hRows⟩ := hRunning
  cases hSpelled
  refine ⟨?_, by simpa [matrix] using hRows⟩
  rw [nextOpcode, bind_of_ok (getPos_run s), if_neg (Nat.lt_irrefl _)]
  rfl

/-- The program is run to its end. -/
theorem run_program {n : Nat} (hMatches : Matches h p)
    (hRunning : Running env p last rows is s) (hLess : is.length < n) :
    ∃ s', (loop (nextOpcode env h last.pos)).run n s = some (.ok ⟨⟩, s') ∧
      s'.given.map view = rows := by
  have hStep : ∀ (i : Insn) (is : List Insn) (b : PUnit) (s : LineState),
      Running env p last rows (i :: is) s → ∃ b' t,
        (Program.plain (nextOpcode env h last.pos)).run n s = some (.ok (.inl b'), t) ∧
          Running env p last rows is t := by
    intro i is b s hR
    obtain ⟨s', hRun, hNext⟩ := running_next hMatches hR
    exact ⟨⟨⟩, s', congrArg some hRun, hNext⟩
  have hLast : ∀ (b : PUnit) (s : LineState), Running env p last rows [] s → ∃ c t,
      (Program.plain (nextOpcode env h last.pos)).run n s = some (.ok (.inr c), t) ∧
        t.given.map view = rows := by
    intro b s hR
    have hEnd := @running_last env h p s rows last hR
    exact ⟨⟨⟩, s, congrArg some hEnd.1, hEnd.2⟩
  obtain ⟨c, s', hRun, hRows⟩ := Program.run_loop_items
    (R := fun is _ s => Running env p last rows is s) hRunning hLess hStep hLast
  exact ⟨s', hRun, hRows⟩

/-! ## Headers -/

theorem readNumber_run {n : Nat} (hSome : n ≠ 0) (hLength : bytes.length = n)
    (hHere : Here env.sec s.io.pos bytes) :
    io (scan (readNumber env.sec n)) s = (.ok (number env.sec.bigEndian bytes), forward s n) := by
  subst hLength
  exact io_of_scans (scans_number (List.ne_nil_of_length_pos (Nat.pos_of_ne_zero hSome))) hHere

theorem readOffset_run {dwarf64 : Bool}
    (hLength : bytes.length = if dwarf64 then 8 else 4) (hHere : Here env.sec s.io.pos bytes) :
    readOffset env dwarf64 s = (.ok (number env.sec.bigEndian bytes), forward s bytes.length) := by
  rw [hLength]
  cases dwarf64 with
  | false => exact readNumber_run (by decide) hLength hHere
  | true => exact readNumber_run (by decide) hLength hHere

theorem readMaxOps_run (hHere : Here env.sec s.io.pos p.maxOpsBytes) :
    readMaxOps env p.version s = (.ok p.maxOps, forward s p.maxOpsBytes.length) := by
  unfold Prologue.maxOpsBytes readMaxOps at *
  by_cases hNew : 4 ≤ p.version
  · rw [if_pos hNew] at hHere ⊢
    rw [if_pos hNew]
    exact io_of_scans (scans_u1 p.maxOps) hHere
  · rw [if_neg hNew, if_neg hNew, p.maxOpsOld (by omega)]
    rfl

theorem readLengths_run (hPos : s.io.pos ≤ env.sec.data.length)
    (hHere : Here env.sec s.io.pos p.opcodeLengths) :
    (BitVec.ofNat 32 p.opcodeBase.toNat - 1).toNat = p.opcodeLengths.length ∧
    io (scan (read env.sec (BitVec.ofNat 32 p.opcodeBase.toNat - 1))) s =
      (.ok p.opcodeLengths, forward s p.opcodeLengths.length) := by
  have hBase := p.opcodeBase.toNat_lt
  have hLengths := p.lengthsOf
  have hOne : (1 : BitVec 32) ≤ BitVec.ofNat 32 p.opcodeBase.toNat := by
    rw [BitVec.le_def, BitVec.toNat_ofNat]
    show 1 ≤ _
    omega
  have hSize : (BitVec.ofNat 32 p.opcodeBase.toNat - 1).toNat = p.opcodeLengths.length := by
    rw [BitVec.toNat_sub_of_le hOne, BitVec.toNat_ofNat]
    show _ - 1 = _
    omega
  refine ⟨hSize, ?_⟩
  have hRead := scan_of_ok (scans_read hSize hPos hHere)
  exact part_of_ok hRead

/-- The header, as far as the tables of directories and files. -/
structure HeaderRead (env : Env) (p : Prologue) (s : LineState) (bytes : List UInt8) (h : Header)
    (n : Nat) : Prop where
  isHeader : Matches h p
  here     : Here env.sec (s.io.pos + n) (p.dirBytes ++ p.fileBytes)
  total    : n + (p.dirBytes ++ p.fileBytes).length = bytes.length
  size     : h.headerPos + h.headerSize = s.io.pos + bytes.length

theorem readHeader_run {dwarf64 : Bool}
    (hSpelled : SpelledPrologue env.sec.bigEndian dwarf64 p bytes)
    (hHere : Here env.sec s.io.pos bytes) :
    ∃ h n, readHeader env dwarf64 s = (.ok h, forward s n) ∧ HeaderRead env p s bytes h n := by
  obtain ⟨version, length, hTwo, hVersion, hWidth, hLength, rfl⟩ := hSpelled.spelled
  obtain ⟨hVersionHere, hRest⟩ := here_append.1 hHere
  rw [hTwo] at hRest
  obtain ⟨hLengthHere, hBody⟩ := here_append.1 hRest
  obtain ⟨hMin, hBody⟩ := here_append.1 hBody
  obtain ⟨hMax, hBody⟩ := here_append.1 hBody
  obtain ⟨hStmt, hBody⟩ := here_append.1 hBody
  obtain ⟨hBase, hBody⟩ := here_append.1 hBody
  obtain ⟨hRange, hBody⟩ := here_append.1 hBody
  obtain ⟨hOpcode, hBody⟩ := here_append.1 hBody
  obtain ⟨hSizes, hTables⟩ := here_append.1 hBody
  have hEnd := hOpcode.end_le (List.cons_ne_nil _ _)
  -- the state behind each field
  let s₁ := forward s 2
  let s₂ := forward s₁ length.length
  let s₃ := forward s₂ 1
  let s₄ := forward s₃ p.maxOpsBytes.length
  let s₅ := forward s₄ 1
  let s₆ := forward s₅ 1
  let s₇ := forward s₆ 1
  let s₈ := forward s₇ 1
  have hRead₁ : io (scan (DwarfIo.readU2 env.sec)) s = (.ok p.version, s₁) := by
    rw [← hVersion]
    exact readNumber_run (by decide) hTwo hVersionHere
  have hRead₂ : readOffset env dwarf64 s₁ = (.ok p.body.length, s₂) := by
    rw [← hLength]
    exact readOffset_run hWidth hLengthHere
  have hRead₃ : readU1 env s₂ = (.ok p.minInstructionLength, s₃) :=
    io_of_scans (scans_u1 _) hMin
  have hRead₄ : readMaxOps env p.version s₃ = (.ok p.maxOps, s₄) := readMaxOps_run hMax
  have hRead₅ : readU1 env s₄ = (.ok p.defaultIsStmt, s₅) := io_of_scans (scans_u1 _) hStmt
  have hRead₆ : readU1 env s₅ = (.ok p.lineBase, s₆) := io_of_scans (scans_u1 _) hBase
  have hRead₇ : readU1 env s₆ = (.ok p.lineRange, s₇) := io_of_scans (scans_u1 _) hRange
  have hRead₈ : readU1 env s₇ = (.ok p.opcodeBase, s₈) := io_of_scans (scans_u1 _) hOpcode
  obtain ⟨hCount, hRead₉⟩ := @readLengths_run env p s₈ hEnd hSizes
  have hEnsure : (ensure ((BitVec.ofNat 32 p.opcodeBase.toNat - 1).toNat ≤ 255) : Line Unit)
      (forward s₈ p.opcodeLengths.length) = (.ok (), forward s₈ p.opcodeLengths.length) := by
    have hByte := p.opcodeBase.toNat_lt
    have hLengths := p.lengthsOf
    rw [ensure, if_pos (by omega)]
    rfl
  have hKnown : ¬ (p.version < 2 ∨ 4 < p.version) := by
    have := p.versionKnown
    omega
  -- the length of the header counts from behind its own field
  have hBodyLength : p.body.length = 5 + p.maxOpsBytes.length + p.opcodeLengths.length +
      (p.dirBytes ++ p.fileBytes).length := by
    simp only [Prologue.body, List.length_append, List.length_singleton]
    omega
  refine ⟨⟨p.body.length, s₂.io.pos, p.minInstructionLength, p.maxOps, p.defaultIsStmt ≠ 0,
    p.lineBase.toBitVec.toInt, p.lineRange, p.opcodeBase, p.opcodeLengths⟩,
    7 + length.length + p.maxOpsBytes.length + p.opcodeLengths.length, ?_, ?_⟩
  · rw [readHeader, bind_of_ok hRead₁, if_neg hKnown, bind_of_ok hRead₂, bind_of_ok (getPos_run s₂),
      bind_of_ok hRead₃, bind_of_ok hRead₄, bind_of_ok hRead₅, bind_of_ok hRead₆, bind_of_ok hRead₇,
      bind_of_ok hRead₈, bind_of_ok hRead₉, bind_of_ok hEnsure]
    refine Prod.ext rfl ?_
    show forward s₈ _ = _
    simp only [s₈, s₇, s₆, s₅, s₄, s₃, s₂, s₁, forward_forward]
    congr 1
    omega
  · refine ⟨⟨rfl, rfl, rfl, rfl, rfl, rfl⟩, ?_, ?_, ?_⟩
    · have hPos : s.io.pos + (7 + length.length + p.maxOpsBytes.length + p.opcodeLengths.length) =
          s.io.pos + 2 + length.length + 1 + p.maxOpsBytes.length + 1 + 1 + 1 + 1 +
            p.opcodeLengths.length := by omega
      rw [hPos]
      exact hTables
    · simp only [List.length_append, hTwo, hBodyLength]
      omega
    · show s.io.pos + 2 + length.length + p.body.length = _
      simp only [List.length_append, hTwo]
      omega

/-! ## Tables -/

theorem readString_name {name : Name} (hFits : name.chars.length < 2 ^ 32)
    (hHere : Here env.sec s.io.pos name.bytes) :
    readString env s = (.ok (some s.io.pos), forward s name.bytes.length) := by
  have hSome : ¬ name.chars.length % 2 ^ 32 = 0 := by
    have := List.length_pos_of_ne_nil name.notNil
    omega
  have hLength : name.bytes.length = name.chars.length + 1 := by simp [Name.bytes]
  rw [readString_run name.noZero hHere, if_neg hSome, hLength]

theorem readString_end (hHere : Here env.sec s.io.pos [0]) :
    readString env s = (.ok none, forward s 1) :=
  readString_run List.not_mem_nil hHere

/-- So many bytes further, with the tables of the unit as they are then. -/
def passed (s : LineState) (n : Nat) (u : UnitLines) : LineState :=
  ⟨moved s.io n, u, s.state, s.given⟩

theorem passed_passed (s : LineState) (n m : Nat) (u v : UnitLines) :
    passed (passed s n u) m v = passed s (n + m) v := by
  unfold passed
  rw [moved_moved]

/-- A table of entries and a zero is read; nothing but the unit is changed. -/
theorem run_table {ι : Type} {round : Line (PUnit ⊕ PUnit)} {bytesOf : ι → List UInt8}
    {FitsIn : ι → Prop} {items : List ι} {n : Nat}
    (hEntry : ∀ i s, FitsIn i → Here env.sec s.io.pos (bytesOf i) →
      ∃ u, round s = (.ok (.inl ⟨⟩), passed s (bytesOf i).length u))
    (hZero : ∀ s : LineState, Here env.sec s.io.pos [0] → round s = (.ok (.inr ⟨⟩), forward s 1))
    (hFits : ∀ i ∈ items, FitsIn i) (hHere : Here env.sec s.io.pos (items.flatMap bytesOf ++ [0]))
    (hLess : items.length < n) :
    ∃ u, (loop round).run n s =
      some (.ok ⟨⟩, passed s (items.flatMap bytesOf ++ [0]).length u) := by
  let R (is : List ι) (_ : PUnit) (s' : LineState) : Prop :=
    (∀ i ∈ is, FitsIn i) ∧ ∃ k u, s' = passed s k u ∧
      Here env.sec (s.io.pos + k) (is.flatMap bytesOf ++ [0]) ∧
      k + (is.flatMap bytesOf ++ [0]).length = (items.flatMap bytesOf ++ [0]).length
  have hStart : R items ⟨⟩ s := ⟨hFits, 0, s.unit, rfl, hHere, Nat.zero_add _⟩
  have hItem : ∀ i is (b : PUnit) s', R (i :: is) b s' → ∃ b' t,
      (Program.plain round).run n s' = some (.ok (.inl b'), t) ∧ R is b' t := by
    rintro i is b s' ⟨hAll, k, u, rfl, hAt, hTotal⟩
    rw [List.flatMap_cons, List.append_assoc] at hAt hTotal
    obtain ⟨hFirst, hRest⟩ := here_append.1 hAt
    obtain ⟨v, hRound⟩ := hEntry i (passed s k u) (hAll i List.mem_cons_self) hFirst
    refine ⟨⟨⟩, _, congrArg some hRound, fun j hj => hAll j (.tail _ hj), k + (bytesOf i).length, v,
      passed_passed s k _ u v, ?_, ?_⟩
    · rw [← Nat.add_assoc]
      exact hRest
    · rw [List.length_append] at hTotal
      omega
  have hLast : ∀ (b : PUnit) s', R [] b s' → ∃ c t,
      (Program.plain round).run n s' = some (.ok (.inr c), t) ∧
        ∃ u, t = passed s (items.flatMap bytesOf ++ [0]).length u := by
    rintro b s' ⟨-, k, u, rfl, hAt, hTotal⟩
    refine ⟨⟨⟩, _, congrArg some (hZero _ hAt), u, ?_⟩
    rw [← hTotal]
    exact passed_passed s k 1 u u
  obtain ⟨c, s', hRun, u, rfl⟩ := Program.run_loop_items (R := R) hStart hLess hItem hLast
  exact ⟨u, hRun⟩

theorem nextDir_run (name : Name) (s : LineState) (hFits : name.chars.length < 2 ^ 32)
    (hHere : Here env.sec s.io.pos name.bytes) :
    ∃ u, nextDir env s = (.ok (.inl ⟨⟩), passed s name.bytes.length u) := by
  rw [nextDir, bind_of_ok (readString_name hFits hHere)]
  exact ⟨_, rfl⟩

theorem nextFile_run (f : FileEntry) (s : LineState) (hFits : f.name.chars.length < 2 ^ 32)
    (hHere : Here env.sec s.io.pos f.bytes) :
    ∃ u, nextFile env s = (.ok (.inl ⟨⟩), passed s f.bytes.length u) := by
  obtain ⟨hName, hRest⟩ := here_append.1 hHere
  obtain ⟨u, hFile⟩ := @readFile_run env (forward s f.name.bytes.length) f (some s.io.pos) hRest
  rw [forward_forward] at hFile
  refine ⟨u, ?_⟩
  rw [nextFile, bind_of_ok (readString_name hFits hName), FileEntry.bytes, List.length_append]
  exact bind_of_ok hFile

/-- The names of the header have fewer than `2 ^ 32` characters. -/
structure NamesFit (p : Prologue) : Prop where
  dirs  : ∀ name ∈ p.dirs, name.chars.length < 2 ^ 32
  files : ∀ f ∈ p.files, f.name.chars.length < 2 ^ 32

/-- The rows that are given to `add_state` are those of the matrix, for every header and program
that fit. -/
theorem rows_eq_matrix {dwarf64 : Bool} {bytes : List UInt8} {is : List Insn} {last : DwarfIo.State}
    {lineInfoOffs unitSize : Nat} (hSpelled : SpelledPrologue env.sec.bigEndian dwarf64 p bytes)
    (hHere : Here env.sec s.io.pos bytes) (hGiven : s.given = [])
    (hProgram : SpelledProgram env p is (moved s.io bytes.length) last)
    (hLast : last.pos = u8 (lineInfoOffs + unitSize)) (hNames : NamesFit p)
    (hFits : AllFit p (LineProgram.start p) is) :
    ∃ n s', (loadLineNumbersV2 env lineInfoOffs unitSize dwarf64).run n s = some (.ok ⟨⟩, s') ∧
      s'.given.map view = matrix p (LineProgram.start p) is := by
  obtain ⟨h, k, hHeader, hRead⟩ := readHeader_run hSpelled hHere
  obtain ⟨hDirs, hFiles⟩ := here_append.1 hRead.here
  let n := p.dirs.length + p.files.length + is.length + 1
  obtain ⟨u, hRunDirs⟩ := @run_table env (forward s k) Name (nextDir env) Name.bytes _ p.dirs n
    nextDir_run (fun s hZero => by rw [nextDir, bind_of_ok (readString_end hZero)]; rfl)
    hNames.dirs hDirs (by omega)
  obtain ⟨v, hRunFiles⟩ := @run_table env (passed (forward s k) p.dirBytes.length u)
    FileEntry (nextFile env) FileEntry.bytes _ p.files n nextFile_run
    (fun s hZero => by rw [nextFile, bind_of_ok (readString_end hZero)]; rfl)
    hNames.files hFiles (by omega)
  have hTotal := hRead.total
  rw [List.length_append] at hTotal
  let s₁ := passed s bytes.length v
  have hTables : passed (passed (forward s k) p.dirBytes.length u) p.fileBytes.length v = s₁ := by
    rw [show forward s k = passed s k s.unit from rfl, passed_passed, passed_passed]
    exact congrArg (passed s · v) (by omega)
  have hCheck : checkHeader dwarf64 h s₁ = (.ok ⟨⟩, s₁) := by
    have hPos : u8 (h.headerPos + h.headerSize) = s.io.pos + bytes.length := by
      rw [hRead.size, u8_of_lt (hHere.end_lt ?_)]
      rintro rfl
      obtain ⟨version, length, hTwo, -, -, -, hNil⟩ := hSpelled.spelled
      have := congrArg List.length hNil
      rw [List.length_append, hTwo, List.length_nil] at this
      omega
    rw [checkHeader, bind_of_ok (getPos_run s₁), if_pos (.inl hPos)]
    rfl
  let s₂ : LineState := ⟨s₁.io, s₁.unit, h.start, s₁.given⟩
  have hRunning : Running env p last (matrix p (LineProgram.start p) is) is s₂ := by
    refine ⟨LineProgram.start p, hRead.isHeader.start, hFits, hProgram, ?_⟩
    show s.given.map view ++ _ = _
    rw [hGiven]
    rfl
  obtain ⟨s', hRun, hRows⟩ := run_program (n := n) hRead.isHeader hRunning (by omega)
  refine ⟨n, s', ?_, hRows⟩
  have hFilesAll : (loop (nextFile env)).run n (passed (forward s k) p.dirBytes.length u) =
      some (.ok ⟨⟩, s₁) := by
    rw [← hTables]
    exact hRunFiles
  have hState : onState (fun _ => h.start) s₁ = (.ok ⟨⟩, s₂) := rfl
  unfold loadLineNumbersV2
  rw [Program.run_bind_ok (congrArg some hHeader), Program.run_bind_ok hRunDirs]
  refine (Program.run_bind_ok hFilesAll).trans ?_
  rw [Program.run_bind_ok (congrArg some hCheck), Program.run_bind_ok (congrArg some hState),
    ← hLast]
  exact hRun

end

/-! ## A program that fits, and one that does not -/

/-- A header with one standard opcode. -/
def headerBytes : List UInt8 := [2, 0, 8, 0, 0, 0, 1, 1, 0, 1, 2, 0, 0, 0]

/-- One row is appended. -/
def oneRow : Env where
  sec := ⟨some ".debug_line", 0, headerBytes ++ [1], false, true, .ok ⟨⟩, none, by decide⟩
  unit := none
  strings _ := .error eof

/-- The discriminator is set to 1, and two rows are appended. -/
def twoRows : Env where
  sec := ⟨some ".debug_line", 0, headerBytes ++ [0, 2, 4, 1, 1, 1], false, true, .ok ⟨⟩, none,
    by decide⟩
  unit := none
  strings _ := .error eof

def smallHeader : Prologue where
  version              := 2
  minInstructionLength := 1
  maxOps               := 1
  defaultIsStmt        := 1
  lineBase             := 0
  lineRange            := 1
  opcodeBase           := 2
  opcodeLengths        := [0]
  dirs                 := []
  files                := []
  versionKnown         := by decide
  maxOpsSome           := by decide
  maxOpsOld            := fun _ => rfl
  lineRangeSome        := by decide
  opcodeBaseSome       := by decide
  lengthsOf            := rfl

/-- At a position of the section. -/
def atPos (pos : Nat) : LineState :=
  ⟨⟨pos, 0, emptyForm, 0, 0, []⟩, ⟨[], [], []⟩, {}, []⟩

theorem smallHeader_spelled : SpelledPrologue false false smallHeader headerBytes :=
  ⟨[2, 0], [8, 0, 0, 0], by decide, by decide, by decide, by decide, by decide⟩

theorem copy_spelled {env : Env} (pos : Nat) (hHere : Here env.sec pos [1]) :
    LineProgram.Spelled env smallHeader .copy (atPos pos).io (atPos (pos + 1)).io :=
  .standard _ _ 1 _ (by decide) hHere (.copy _)

theorem rows_eq_matrix_copy : ∃ n s',
    (loadLineNumbersV2 oneRow 0 15 false).run n (atPos 0) = some (.ok ⟨⟩, s') ∧
      s'.given.map view = matrix smallHeader (LineProgram.start smallHeader) [.copy] := by
  have hHeader : Here oneRow.sec 0 headerBytes := by
    unfold Here
    decide
  have hCopy : Here oneRow.sec 14 [1] := by
    unfold Here
    decide
  have hRow : RowFits (LineProgram.start smallHeader) :=
    ⟨by decide, by decide, by decide, by decide, by decide⟩
  exact rows_eq_matrix smallHeader_spelled hHeader rfl (.cons (copy_spelled 14 hCopy) (.nil _)) rfl
    ⟨nofun, nofun⟩ ⟨⟨hRow, rfl⟩, trivial⟩

/-- The second row has the discriminator that was set for the first one. -/
theorem rows_ne_matrix :
    SpelledPrologue false false smallHeader headerBytes ∧ Here twoRows.sec 0 headerBytes ∧
    SpelledProgram twoRows smallHeader [.extended 2 (.setDiscriminator 1), .copy, .copy]
      (atPos 14).io (atPos 20).io ∧
    ¬ ∃ n s', (loadLineNumbersV2 twoRows 0 20 false).run n (atPos 0) = some (.ok ⟨⟩, s') ∧
      s'.given.map view = matrix smallHeader (LineProgram.start smallHeader)
        [.extended 2 (.setDiscriminator 1), .copy, .copy] := by
  have hExtended : Here twoRows.sec 14 [0, 2, 4] ∧ Here twoRows.sec 17 [1] := by
    unfold Here
    decide
  have hCopies : Here twoRows.sec 18 [1] ∧ Here twoRows.sec 19 [1] := by
    unfold Here
    decide
  have hFirst : LineProgram.Spelled twoRows smallHeader (.extended 2 (.setDiscriminator 1))
      (atPos 14).io (atPos 18).io :=
    .extended _ _ ⟨[2], by decide⟩ 4 (.setDiscriminator 1) hExtended.1
      (.setDiscriminator _ ⟨[1], by decide⟩ hExtended.2) rfl
  refine ⟨smallHeader_spelled,
    by unfold Here; decide, .cons hFirst (.cons (copy_spelled 18 hCopies.1)
    (.cons (copy_spelled 19 hCopies.2) (.nil _))), ?_⟩
  rintro ⟨n, s', hRun, hRows⟩
  have hOther : ((loadLineNumbersV2 twoRows 0 20 false).run 9 (atPos 0)).map
      (fun r => r.2.given.map fun c => c.discriminator.toNat) = some [1, 1] := by
    decide +kernel
  obtain ⟨r, hNine, hDiscriminators⟩ := Option.map_eq_some_iff.1 hOther
  obtain rfl := Program.run_unique hRun hNine
  have hView := congrArg (List.map Registers.discriminator) hRows
  rw [List.map_map] at hView
  exact absurd (hView.symm.trans hDiscriminators) (by decide)

end TcfAgent.LineNumbers
