import TcfAgent.Lib.Attempt
import Mathlib.Data.List.SplitBy
import Mathlib.Data.List.TakeWhile

/-!
# Relocations

`drl_relocate_in_context` of `services/dwarfreloc.c`: the entries of a relocation section for one
offset are looked up, and each of them is applied to the data. The entries are cut into zones, so
that the offsets of a zone are in order; a zone is bisected, and the first one where the offset is
found is the last one that is looked at. The value of a symbol is kept in a static variable.

A zone, and what is left of it, is a list of entries. The functions of the target machines, the
symbols and their addresses are given from outside.

Main results:

* `lookup_iff`        — when the entries of the offset are found;
* `lookup_of_rel`     — which ones are found in a relocatable file.
-/

namespace TcfAgent.Relocations

open TcfAgent.Lib TcfAgent.Lib.Attempt

/-! ## Sections -/

abbrev Word := BitVec 64

/-- `Elf32_Rel` and the others, as they are in the file. -/
structure Rel where
  rOffset : Word
  rInfo   : Word
  rAddend : Word
deriving DecidableEq, Repr

/-- `ET_REL`, `ET_EXEC`, and the others. -/
inductive FileType where
  | rel
  | exec
  | other
deriving DecidableEq, Repr

/-- Errors: one of another function, or "Common relocation record unsupported", "Invalid relocation
record" and "Unsupported ELF machine code" with `ERR_INV_FORMAT`. -/
inductive RelocError where
  | other (code : Nat)
  | commonRecord
  | invalidRecord
  | unsupportedMachine
deriving DecidableEq, Repr

/-- `SHN_ABS` -/
def shnAbs : Nat := 0xfff1

/-- `SHN_COMMON` -/
def shnCommon : Nat := 0xfff2

/-- `ELF_SymbolInfo`: the section has an index and an address. -/
structure SymbolInfo where
  sectionIndex : Nat
  elfSection     : Option (Nat × Word)
  value        : Word
deriving DecidableEq, Repr

/-- A section with its relocations. `symbol` is `unpack_elf_symbol_info`, and `symbolAddress` is
`elf_symbol_address` when there is a context; `func` is the function of the machine, which is given
the offset, the type, the addend and the value of the symbol. -/
structure Section (Data : Type) where
  elf64         : Bool
  rela          : Bool
  type          : FileType
  addr          : Word
  entries       : List Rel
  symbol        : Nat → Except RelocError SymbolInfo
  symbolAddress : Option (SymbolInfo → Except RelocError Word)
  func          : Option (Word → Nat → Word → Word → Data → Option Nat →
    Except RelocError (Data × Option Nat))

variable {Data : Type}

/-- The lower half of a word, of which the fields of a 32 bit file consist. -/
def lower (w : Word) : Word := (w.truncate 32).zeroExtend 64

/-- The offset, as it is in the file. -/
def rawOffset (s : Section Data) (r : Rel) : Word := if s.elf64 then r.rOffset else lower r.rOffset

/-- `get_offs4` and `get_offs8` -/
def offs (s : Section Data) (r : Rel) : Word :=
  if s.type = .rel then rawOffset s r
  else if s.elf64 then r.rOffset - s.addr
  else lower (r.rOffset - s.addr)

/-- `ELF32_R_SYM` and `ELF64_R_SYM` -/
def symIndex (s : Section Data) (r : Rel) : Nat :=
  if s.elf64 then (r.rInfo >>> 32).toNat else (lower r.rInfo >>> 8).toNat

/-- `ELF32_R_TYPE` and `ELF64_R_TYPE` -/
def relocType (s : Section Data) (r : Rel) : Nat :=
  if s.elf64 then (lower r.rInfo).toNat else (r.rInfo.truncate 8).toNat

def relocAddend (s : Section Data) (r : Rel) : Word :=
  if ¬ s.rela then 0 else if s.elf64 then r.rAddend else (r.rAddend.truncate 32).signExtend 64

/-! ## Lookup -/

/-- The zones: a new one begins where an offset is less than the one before. They are found once for
a section. -/
def zones (s : Section Data) : List (List Rel) :=
  s.entries.splitBy fun a b => rawOffset s a ≤ rawOffset s b

/-- The entries next to the one that was found, on one side of it: those of the same offset; `none`
when the assertion on the order of the next one fails. -/
def spread (same inOrder : Rel → Bool) : List Rel → Option (List Rel)
  | [] => some []
  | y :: side =>
    if same y then (spread same inOrder side).map (y :: ·) else if inOrder y then some [] else none

/-- The entries of the offset in a part of a zone; `none` when an assertion fails. Half of the part
is left in every round. -/
def bisect (s : Section Data) (offset : Word) : (fuel : Nat) → List Rel → Option (List Rel)
  | _, [] => some []
  | 0, _ :: _ => none
  | fuel + 1, part =>
    let n := part.length / 2
    match part.drop n with
    | [] => none
    | x :: right =>
      if offset > offs s x then bisect s offset fuel right
      else if offset < offs s x then bisect s offset fuel (part.take n)
      else do
        let before ← spread (fun y => offs s y = offset) (fun y => offs s y ≤ offset)
          (part.take n).reverse
        let behind ← spread (fun y => offs s y = offset) (fun y => offs s y ≥ offset) right
        return before.reverse ++ x :: behind

/-- One zone after the other, up to the first one where the offset is found. -/
def lookupZones (s : Section Data) (offset : Word) : List (List Rel) → Option (List Rel)
  | [] => some []
  | zone :: zones =>
    match bisect s offset zone.length zone with
    | none => none
    | some [] => lookupZones s offset zones
    | some (x :: found) => some (x :: found)

def lookup (s : Section Data) (offset : Word) : Option (List Rel) := lookupZones s offset (zones s)

/-! ## Relocation -/

/-- An entry that is applied, and the value of the symbol that it is applied with. -/
inductive Event where
  | entry (r : Rel)
  | value (w : Word)
deriving DecidableEq, Repr

/-- The static variable `sym_value`, and what the caller gets. -/
structure State (Data : Type) where
  symValue    : Word
  data        : Data
  destination : Option Nat
  runTimeAddr : Bool
  events      : List Event

/-- What a symbol comes to: its value, its section if it has one, and whether the value is a run
time address. -/
structure Resolved where
  value       : Word
  destination : Option Nat
  runTimeAddr : Bool
deriving DecidableEq, Repr

/-- The symbol of an entry; `none` for the undefined symbol `STN_UNDEF`. -/
def resolve (s : Section Data) (index : Nat) : Except RelocError (Option Resolved) :=
  if index = 0 then .ok none
  else
    match s.symbol index with
    | .error e => .error e
    | .ok info =>
      if info.sectionIndex = shnAbs then .ok (some ⟨info.value, none, false⟩)
      else if info.sectionIndex = shnCommon then
        match s.symbolAddress with
        | none => .error .commonRecord
        | some address => (address info).map fun addr => some ⟨addr, none, true⟩
      else if info.sectionIndex = 0 then .error .invalidRecord
      else
        match info.elfSection with
        | none => .error .invalidRecord
        | some (i, addr) =>
          .ok (some ⟨if s.type = .exec then info.value else addr + info.value, some i, false⟩)

def record (e : Event) : Attempt (State Data) RelocError Unit :=
  modify fun t => { t with events := t.events ++ [e] }

/-- The first part of `relocate`: the variables are set from the symbol. -/
def setSymbol (s : Section Data) (r : Rel) : Attempt (State Data) RelocError Unit :=
  match resolve s (symIndex s r) with
  | .error e => raise e
  | .ok none => pure ()
  | .ok (some v) => modify fun t => { t with
      symValue := v.value
      destination := v.destination.or t.destination
      runTimeAddr := t.runTimeAddr || v.runTimeAddr }

/-- The last part of `relocate`: only the destination section is needed of an executable file. -/
def applyFunc (s : Section Data) (offset : Word) (r : Rel) : Attempt (State Data) RelocError Unit :=
  if s.type ≠ .rel then pure ()
  else
    match s.func with
    | none => raise .unsupportedMachine
    | some func => do
      let t ← get
      record (.value t.symValue)
      match func offset (relocType s r) (relocAddend s r) t.symValue t.data t.destination with
      | .error e => raise e
      | .ok (data, destination) =>
          modify fun t => { t with data := data, destination := destination }

def relocate (s : Section Data) (offset : Word) (r : Rel) :
    Attempt (State Data) RelocError Unit := do
  record (.entry r)
  setSymbol s r
  applyFunc s offset r

/-- One entry after the other. -/
def relocateAll (p : Rel → Attempt (State Data) RelocError Unit) :
    List Rel → Attempt (State Data) RelocError Unit
  | [] => pure ()
  | r :: rels => do
    p r
    relocateAll p rels

/-- A call of `drl_relocate_in_context`. -/
structure Call (Data : Type) where
  elfSection : Section Data
  offset   : Word
  data     : Data

/-- The state in which a call begins, with what is left in `sym_value`. -/
def Call.start (c : Call Data) (symValue : Word) : State Data := ⟨symValue, c.data, none, false, []⟩

/-- `drl_relocate_in_context` -/
def drlRelocateInContext (c : Call Data) : Attempt (State Data) RelocError Unit :=
  match lookup c.elfSection c.offset with
  | none => fault
  | some found => relocateAll (relocate c.elfSection c.offset) found

/-- What earlier calls leave in `sym_value`. -/
def symValueAfter (history : List (Call Data)) : Word :=
  history.foldl (fun w c => (drlRelocateInContext c (c.start w)).2.symValue) 0

/-! ## What is expected -/

/-- The entries of the offset, in the order of the table. -/
def matching (s : Section Data) (offset : Word) : List Rel := s.entries.filter fun r =>
    offs s r = offset

/-- An entry is applied with nothing left of the ones before; the undefined symbol has the value 0.
-/
def relocateAlone (s : Section Data) (offset : Word) (r : Rel) :
    Attempt (State Data) RelocError Unit := do
  modify fun t => { t with symValue := 0 }
  relocate s offset r

/-- What the caller sees. -/
def outcome (x : Except (Stop RelocError) Unit × State Data) :
    Except (Stop RelocError) Unit × Data × Option Nat × Bool × List Event :=
  (x.1, x.2.data, x.2.destination, x.2.runTimeAddr, x.2.events)

/-- The entries of the offset are found, and whatever was relocated before, they are applied as each
of them alone would be. -/
def Relocated (c : Call Data) : Prop :=
  lookup c.elfSection c.offset = some (matching c.elfSection c.offset) ∧
    ∀ history :
      List (Call Data), outcome (drlRelocateInContext c (c.start (symValueAfter history))) =
      outcome (relocateAll (relocateAlone c.elfSection c.offset) (matching c.elfSection c.offset)
        (c.start 0))

/-- On one side of the entry that was found, the entries of the offset come first, and the next one
is in order. -/
def SideOk (same inOrder : Rel → Bool) (side : List Rel) : Prop :=
  (∀ y ∈ side.dropWhile same, ¬ same y) ∧ ∀ y ∈ (side.dropWhile same).head?, inOrder y

/-- No half that the bisection leaves has an entry of the offset; and those next to the one that it
finds are all there are. -/
def BisectOk (s : Section Data) (offset : Word) : (fuel : Nat) → List Rel → Prop
  | 0, _ => True
  | fuel + 1, part =>
    let n := part.length / 2
    match part.drop n with
    | [] => True
    | x :: right =>
      if offset > offs s x then (∀ y ∈ part.take n, offs s y ≠ offset) ∧
        BisectOk s offset fuel right
      else if offset < offs s x then (∀ y ∈ right, offs s y ≠ offset) ∧
        BisectOk s offset fuel (part.take n)
      else SideOk (fun y => offs s y = offset) (fun y => offs s y ≤ offset) (part.take n).reverse ∧
        SideOk (fun y => offs s y = offset) (fun y => offs s y ≥ offset) right

/-- The bisection does well in all zones up to the first one with an entry of the offset, and there
is none behind that. -/
def ZonesOk (s : Section Data) (offset : Word) : List (List Rel) → Prop
  | [] => True
  | zone :: zones => BisectOk s offset zone.length zone ∧
      if ∃ r ∈ zone, offs s r = offset then ∀ z ∈ zones, ∀ r ∈ z,
        offs s r ≠ offset else ZonesOk s offset zones

/-- An entry with the undefined symbol, for the data of a relocatable file, comes behind one with a
symbol of value 0. `last` is the value of the last symbol, if there was one; entries behind an
exception do not count. -/
def ValuesOk (s : Section Data) (offset : Word) :
    (last : Option Word) → Data → Option Nat → List Rel → Prop
  | _, _, _, [] => True
  | last, data, destination, r :: rels =>
    match resolve s (symIndex s r) with
    | .error _ => True
    | .ok v =>
      let last' := (v.map Resolved.value).or last
      let destination' := (v.bind Resolved.destination).or destination
      if s.type ≠ .rel then ValuesOk s offset last' data destination' rels
      else
        match s.func with
        | none => True
        | some func => (v = none → last = some 0) ∧
          match func offset (relocType s r) (relocAddend s r) (last'.getD 0) data destination' with
          | .error _ => True
          | .ok (data', destination'') => ValuesOk s offset last' data' destination'' rels

/-- The search and every record give what they should. -/
def CallOk (c : Call Data) : Prop :=
  ZonesOk c.elfSection c.offset (zones c.elfSection) ∧
    ValuesOk c.elfSection c.offset none c.data none (matching c.elfSection c.offset)

/-! ## When the entries are found -/

section

variable {s : Section Data} {offset : Word} {same inOrder : Rel → Bool} {side part found : List Rel}
  {fuel : Nat}

theorem takeWhile_sublist_filter (p : Rel → Bool) (l : List Rel) :
    (l.takeWhile p).Sublist (l.filter p) := by
  have hKept : (l.takeWhile p).filter p = l.takeWhile p :=
    List.filter_eq_self.2 fun y hy => List.mem_takeWhile_imp hy
  rw [← hKept]
  exact (List.takeWhile_sublist p).filter p

theorem spread_eq (same inOrder : Rel → Bool) (side : List Rel) :
    spread same inOrder side =
      if ∀ y ∈ (side.dropWhile same).head?,
        inOrder y then some (side.takeWhile same) else none := by
  induction side with
  | nil => rfl
  | cons y side ih =>
    rw [spread]
    by_cases hSame : same y
    · rw [if_pos hSame, ih, List.dropWhile_cons_of_pos hSame, List.takeWhile_cons_of_pos hSame]
      split <;> rfl
    · rw [if_neg hSame, List.dropWhile_cons_of_neg hSame, List.takeWhile_cons_of_neg hSame]
      simp

theorem spread_sublist (h : spread same inOrder side = some found) :
    found.Sublist (side.filter same) := by
  rw [spread_eq] at h
  split at h
  · cases h
    exact takeWhile_sublist_filter same side
  · cases h

theorem spread_iff : spread same inOrder side = some (side.filter same) ↔
    SideOk same inOrder side := by
  have hFilter : side.filter same = side.takeWhile same ++ (side.dropWhile same).filter same := by
    conv_lhs => rw [← List.takeWhile_append_dropWhile (p := same) (l := side)]
    rw [List.filter_append, List.filter_eq_self.2 fun y hy => List.mem_takeWhile_imp hy]
  rw [spread_eq, SideOk, hFilter]
  constructor
  · intro h
    split at h
    · rename_i hOrder
      have hRest : (side.dropWhile same).filter same = [] := by simpa using Option.some.inj h
      exact ⟨by simpa using hRest, hOrder⟩
    · cases h
  · rintro ⟨hNone, hOrder⟩
    rw [if_pos hOrder, List.filter_eq_nil_iff.2 hNone, List.append_nil]

variable {x : Rel} {right : List Rel}

/-- A part of a zone is what is before the entry in the middle, that entry, and what is behind it.
-/
theorem take_append_middle {n : Nat} (h : part.drop n = x :: right) :
    part.take n ++ x :: right = part := by
  rw [← h, List.take_append_drop]

theorem exists_middle (h : part ≠ []) : ∃ x right, part.drop (part.length / 2) = x :: right := by
  have hPositive : 0 < part.length := List.length_pos_iff.2 h
  rcases hMiddle : part.drop (part.length / 2) with _ | ⟨x, right⟩
  · rw [List.drop_eq_nil_iff] at hMiddle
    omega
  · exact ⟨x, right, rfl⟩

/-- One round of the bisection. -/
theorem bisect_succ (hMiddle : part.drop (part.length / 2) = x :: right) :
    bisect s offset (fuel + 1) part =
      if offset > offs s x then bisect s offset fuel right
      else if offset < offs s x then bisect s offset fuel (part.take (part.length / 2))
      else (spread (fun y => offs s y = offset) (fun y => offs s y ≤ offset)
          (part.take (part.length / 2)).reverse).bind fun before =>
        (spread (fun y => offs s y = offset) (fun y => offs s y ≥ offset) right).bind fun behind =>
          some (before.reverse ++ x :: behind) := by
  rcases part with _ | ⟨y, part⟩
  · cases hMiddle
  · rw [bisect]
    · simp only [hMiddle]
      rfl
    · exact List.cons_ne_nil y part

theorem bisectOk_succ (hMiddle : part.drop (part.length / 2) = x :: right) :
    BisectOk s offset (fuel + 1) part ↔
      if offset > offs s x then
        (∀ y ∈ part.take (part.length / 2), offs s y ≠ offset) ∧ BisectOk s offset fuel right
      else if offset < offs s x then
        (∀ y ∈ right, offs s y ≠ offset) ∧ BisectOk s offset fuel (part.take (part.length / 2))
      else SideOk (fun y => offs s y = offset) (fun y => offs s y ≤ offset)
          (part.take (part.length / 2)).reverse ∧
        SideOk (fun y => offs s y = offset) (fun y => offs s y ≥ offset) right := by
  rw [BisectOk]
  simp only [hMiddle]

variable {p : Rel → Bool}

theorem filter_append_cons {left right : List Rel} (hx : p x) :
    (left ++ x :: right).filter p = left.filter p ++ x :: right.filter p := by
  rw [List.filter_append, List.filter_cons_of_pos hx]

theorem filter_append_cons_of_neg {left right : List Rel} (hx : ¬ p x) :
    (left ++ x :: right).filter p = left.filter p ++ right.filter p := by
  rw [List.filter_append, List.filter_cons_of_neg hx]

/-- One round of the bisection, where the middle is an entry of the offset. -/
theorem around_sublist {before behind left right : List Rel}
    (hBefore : before.Sublist (left.reverse.filter same))
    (hBehind : behind.Sublist (right.filter same)) :
    (before.reverse ++ x :: behind).Sublist (left.filter same ++ x :: right.filter same) := by
  have hLeft : before.reverse.Sublist (left.filter same) := by
    have hReverse := hBefore.reverse
    rwa [← List.filter_reverse, List.reverse_reverse] at hReverse
  exact hLeft.append (hBehind.cons_cons x)

theorem bisect_sublist (h : bisect s offset fuel part = some found) :
    found.Sublist (part.filter fun r => offs s r = offset) := by
  induction fuel generalizing part found with
  | zero =>
    rcases part with _ | ⟨y, part⟩
    · cases h
      exact List.nil_sublist _
    · cases h
  | succ fuel ih =>
    by_cases hPart : part = []
    · rw [hPart] at h
      cases h
      exact List.nil_sublist _
    · obtain ⟨x, right, hMiddle⟩ := exists_middle hPart
      rw [bisect_succ hMiddle] at h
      rw [← take_append_middle hMiddle]
      split at h
      · rename_i hAbove
        have hOther : offs s x ≠ offset := by bv_omega
        rw [filter_append_cons_of_neg (by simpa using hOther)]
        exact (ih h).trans (List.sublist_append_right ..)
      · split at h
        · rename_i hBelow
          have hOther : offs s x ≠ offset := by bv_omega
          rw [filter_append_cons_of_neg (by simpa using hOther)]
          exact (ih h).trans (List.sublist_append_left ..)
        · have hSame : offs s x = offset := by bv_omega
          rw [filter_append_cons (by simpa using hSame)]
          obtain ⟨before, hBefore, h⟩ := Option.bind_eq_some_iff.1 h
          obtain ⟨behind, hBehind, h⟩ := Option.bind_eq_some_iff.1 h
          cases h
          exact around_sublist (spread_sublist hBefore) (spread_sublist hBehind)

/-- A part of the entries is all of them when there are no others. -/
theorem some_append_iff {o : Option (List Rel)} {before l behind : List Rel}
    (h : ∀ found, o = some found → found.Sublist l) :
    o = some (before ++ (l ++ behind)) ↔ (before = [] ∧ behind = []) ∧ o = some l := by
  constructor
  · intro hAll
    have hLength := (h _ hAll).length_le
    simp only [List.length_append] at hLength
    have hBefore : before = [] := List.length_eq_zero_iff.1 (by omega)
    have hBehind : behind = [] := List.length_eq_zero_iff.1 (by omega)
    rw [hBefore, hBehind, List.nil_append, List.append_nil] at hAll
    exact ⟨⟨hBefore, hBehind⟩, hAll⟩
  · rintro ⟨⟨rfl, rfl⟩, hAll⟩
    rw [List.nil_append, List.append_nil, hAll]

theorem around_eq_iff {before behind left right : List Rel}
    (hBefore : before.Sublist (left.reverse.filter same))
    (hBehind : behind.Sublist (right.filter same)) :
    before.reverse ++ x :: behind = left.filter same ++ x :: right.filter same ↔
      before = left.reverse.filter same ∧ behind = right.filter same := by
  constructor
  · intro hAll
    have hLengths := congrArg List.length hAll
    have hLeft := hBefore.length_le
    have hRight := hBehind.length_le
    rw [List.filter_reverse, List.length_reverse] at hLeft
    simp only [List.length_append, List.length_cons, List.length_reverse] at hLengths
    refine ⟨hBefore.eq_of_length ?_, hBehind.eq_of_length (by omega)⟩
    rw [List.filter_reverse, List.length_reverse]
    omega
  · rintro ⟨rfl, rfl⟩
    rw [List.filter_reverse, List.reverse_reverse]

/-- The bisection finds all entries of the offset exactly when it goes well. -/
theorem bisect_iff (hFuel : part.length ≤ fuel) :
    bisect s offset fuel part = some (part.filter fun r => offs s r = offset) ↔
      BisectOk s offset fuel part := by
  induction fuel generalizing part with
  | zero =>
    rw [List.length_eq_zero_iff.1 (by omega : part.length = 0)]
    exact ⟨fun _ => trivial, fun _ => rfl⟩
  | succ fuel ih =>
    by_cases hPart : part = []
    · rw [hPart]
      exact ⟨fun _ => trivial, fun _ => rfl⟩
    · obtain ⟨x, right, hMiddle⟩ := exists_middle hPart
      have hSplit := take_append_middle hMiddle
      have hShort : (part.take (part.length / 2)).length ≤ fuel ∧ right.length ≤ fuel := by
        have hLength := congrArg List.length hMiddle
        simp only [List.length_drop, List.length_cons, List.length_take] at hLength ⊢
        omega
      rw [bisect_succ hMiddle, bisectOk_succ hMiddle]
      generalize part.take (part.length / 2) = left at hSplit hShort
      rw [← hSplit]
      split
      · rename_i hAbove
        have hOther : offs s x ≠ offset := by bv_omega
        rw [filter_append_cons_of_neg (by simpa using hOther), ← ih hShort.2]
        simpa using @some_append_iff _ (left.filter fun r => offs s r = offset) _ []
          fun found h => bisect_sublist h
      · split
        · rename_i hBelow
          have hOther : offs s x ≠ offset := by bv_omega
          rw [filter_append_cons_of_neg (by simpa using hOther), ← ih hShort.1]
          simpa using @some_append_iff _ [] _ (right.filter fun r => offs s r = offset)
            fun found h => bisect_sublist h
        · have hSame : offs s x = offset := by bv_omega
          rw [filter_append_cons (by simpa using hSame), ← spread_iff, ← spread_iff]
          constructor
          · intro hAll
            obtain ⟨before, hBefore, hAll⟩ := Option.bind_eq_some_iff.1 hAll
            obtain ⟨behind, hBehind, hAll⟩ := Option.bind_eq_some_iff.1 hAll
            obtain ⟨rfl, rfl⟩ :=
              (around_eq_iff (spread_sublist hBefore) (spread_sublist hBehind)).1
                (Option.some.inj hAll)
            exact ⟨hBefore, hBehind⟩
          · rintro ⟨hBefore, hBehind⟩
            rw [hBefore, hBehind, Option.bind_some, Option.bind_some, List.filter_reverse,
              List.reverse_reverse]

theorem lookupZones_sublist {zones : List (List Rel)}
    (h : lookupZones s offset zones = some found) :
    found.Sublist (zones.flatten.filter fun r => offs s r = offset) := by
  induction zones generalizing found with
  | nil =>
    cases h
    exact List.nil_sublist _
  | cons zone zones ih =>
    rw [lookupZones] at h
    rw [List.flatten_cons, List.filter_append]
    split at h
    · cases h
    · exact (ih h).trans (List.sublist_append_right ..)
    · rename_i x rest hZone
      cases h
      exact (bisect_sublist hZone).trans (List.sublist_append_left ..)

theorem lookupZones_iff {zones : List (List Rel)} :
    lookupZones s offset zones = some (zones.flatten.filter fun r => offs s r = offset) ↔
      ZonesOk s offset zones := by
  induction zones with
  | nil => exact ⟨fun _ => trivial, fun _ => rfl⟩
  | cons zone zones ih =>
    rw [ZonesOk, ← bisect_iff le_rfl, List.flatten_cons, List.filter_append]
    by_cases hHere : ∃ r ∈ zone, offs s r = offset
    · rw [if_pos hHere]
      obtain ⟨r, hMem, hOffset⟩ := hHere
      have hFound : r ∈ zone.filter fun r => offs s r = offset :=
        List.mem_filter.2 ⟨hMem, by simpa using hOffset⟩
      have hLater : (∀ y ∈ zones.flatten, offs s y ≠ offset) ↔
        ∀ z ∈ zones, ∀ y ∈ z, offs s y ≠ offset := by
        rw [List.forall_mem_flatten]
      rw [← hLater, lookupZones]
      rcases hZone : bisect s offset zone.length zone with _ | _ | ⟨x, rest⟩
      · simp
      · constructor
        · intro h
          have hAll := (@some_append_iff _ (zone.filter fun r => offs s r = offset) _ []
            fun found h => lookupZones_sublist h).1 (by simpa using h)
          rw [hAll.1.1] at hFound
          cases hFound
        · rintro ⟨h, -⟩
          rw [← Option.some.inj h] at hFound
          cases hFound
      · have hAll := @some_append_iff (some (x :: rest)) [] _
          (zones.flatten.filter fun r => offs s r = offset) fun found h =>
            bisect_sublist (hZone.trans h)
        simp only [List.nil_append, true_and, List.filter_eq_nil_iff, decide_eq_true_eq] at hAll
        rw [and_comm, ← hAll]
    · rw [if_neg hHere, ← ih]
      have hNone : zone.filter (fun r => offs s r = offset) = [] := by
        rw [List.filter_eq_nil_iff]
        intro y hMem hOffset
        exact hHere ⟨y, hMem, by simpa using hOffset⟩
      rw [hNone, List.nil_append, lookupZones]
      rcases hZone : bisect s offset zone.length zone with _ | _ | ⟨x, rest⟩
      · simp
      · exact (and_iff_right rfl).symm
      · have hEmpty := bisect_sublist hZone
        rw [hNone] at hEmpty
        cases hEmpty

/-- All entries of the offset are found, each of them once and in order, exactly when the zones are
right. -/
theorem lookup_iff : lookup s offset = some (matching s offset) ↔ ZonesOk s offset (zones s) := by
  rw [← lookupZones_iff, zones, List.flatten_splitBy]
  rfl

theorem sideOk_of_pairwise (hOrder : ∀ y ∈ side, inOrder y)
    (hFirst : side.Pairwise fun a b => same b → same a) :
    SideOk same inOrder side := by
  induction side with
  | nil => simp [SideOk]
  | cons x side ih =>
    obtain ⟨hHead, hTail⟩ := List.pairwise_cons.1 hFirst
    by_cases hSame : same x
    · have hSide := ih (fun y hy => hOrder y (List.mem_cons_of_mem x hy)) hTail
      rwa [SideOk, List.dropWhile_cons_of_pos hSame]
    · rw [SideOk, List.dropWhile_cons_of_neg hSame, List.forall_mem_cons]
      refine ⟨⟨hSame, fun y hy hOther => hSame (hHead y hy hOther)⟩, fun y hy => ?_⟩
      rw [← Option.mem_some.1 hy]
      exact hOrder x List.mem_cons_self

/-- In a zone that is in order the bisection goes well. -/
theorem bisectOk_of_pairwise (h : part.Pairwise fun a b => offs s a ≤ offs s b) :
    BisectOk s offset fuel part := by
  induction fuel generalizing part with
  | zero => trivial
  | succ fuel ih =>
    by_cases hPart : part = []
    · rw [hPart]
      trivial
    · obtain ⟨x, right, hMiddle⟩ := exists_middle hPart
      have hSplit := take_append_middle hMiddle
      rw [bisectOk_succ hMiddle]
      generalize part.take (part.length / 2) = left at hSplit
      rw [← hSplit, List.pairwise_append] at h
      obtain ⟨hLeft, hRight, hBetween⟩ := h
      obtain ⟨hBehind, hRight⟩ := List.pairwise_cons.1 hRight
      have hBefore : ∀ y ∈ left, offs s y ≤ offs s x :=
        fun y hy => hBetween y hy x List.mem_cons_self
      split
      · refine ⟨fun y hy => ?_, ih hRight⟩
        have hLe := hBefore y hy
        bv_omega
      · split
        · refine ⟨fun y hy => ?_, ih hLeft⟩
          have hLe := hBehind y hy
          bv_omega
        · have hSame : offs s x = offset := by bv_omega
          rw [hSame] at hBefore hBehind
          refine ⟨sideOk_of_pairwise (fun y hy => ?_) ?_, sideOk_of_pairwise (fun y hy => ?_) ?_⟩
          · simpa using hBefore y (List.mem_reverse.1 hy)
          · rw [List.pairwise_reverse]
            refine hLeft.imp_of_mem fun {a b} hMem hMem' hLe hFirst => ?_
            have hOffset : offs s a = offset := by simpa using hFirst
            have hBelow := hBefore b hMem'
            have hOther : offs s b = offset := by bv_omega
            simpa using hOther
          · simpa using hBehind y hy
          · refine hRight.imp_of_mem fun {a b} hMem hMem' hLe hSecond => ?_
            have hOffset : offs s b = offset := by simpa using hSecond
            have hAbove := hBehind a hMem
            have hOther : offs s a = offset := by bv_omega
            simpa using hOther

/-- The zones of a relocatable file are made by the offsets that are looked for. -/
theorem bisectOk_of_mem_zones (hType : s.type = .rel) {zone : List Rel} (hZone : zone ∈ zones s) :
    BisectOk s offset fuel zone := by
  have hChain : zone.IsChain fun a b => offs s a ≤ offs s b := by
    refine (List.isChain_of_mem_splitBy hZone).imp fun a b hLe => ?_
    rw [offs, offs, if_pos hType, if_pos hType]
    simpa using hLe
  have hTrans : IsTrans Rel fun a b => offs s a ≤ offs s b :=
    ⟨fun a b c hab hbc => BitVec.le_trans hab hbc⟩
  exact bisectOk_of_pairwise hChain.pairwise

/-- The entries of the offset in the first zone that has one. -/
def firstFound (s : Section Data) (offset : Word) (zones : List (List Rel)) : List Rel :=
  ((zones.map fun zone => zone.filter fun r => offs s r = offset).find? (· ≠ [])).getD []

/-- In a relocatable file the search does not fail, and finds all entries of the offset in the first
zone that has one, whatever the section. -/
theorem lookup_of_rel (hType : s.type = .rel) :
    lookup s offset = some (firstFound s offset (zones s)) := by
  have hBisect : ∀ z ∈ zones s,
      bisect s offset z.length z = some (z.filter fun r => offs s r = offset) :=
    fun z hz => (bisect_iff le_rfl).2 (bisectOk_of_mem_zones hType hz)
  unfold lookup
  generalize zones s = zs at hBisect ⊢
  induction zs with
  | nil => rfl
  | cons z rest ih =>
    obtain ⟨hHere, hBisect⟩ := List.forall_mem_cons.1 hBisect
    rw [lookupZones, hHere]
    unfold firstFound
    rw [List.map_cons]
    cases hFound : z.filter fun r => offs s r = offset with
    | nil => exact ih hBisect
    | cons x found => rfl

/-- The second entry of the offset is in a zone of its own. -/
theorem lookup_of_rel_twice :
    let s : Section Unit := ⟨true, true, .rel, 0, [⟨1, 0, 0⟩, ⟨0, 0, 0⟩, ⟨1, 0, 0⟩],
      fun _ => .error .invalidRecord, none, none⟩
    lookup s 1 = some (firstFound s 1 (zones s)) :=
  lookup_of_rel rfl

end

end TcfAgent.Relocations
