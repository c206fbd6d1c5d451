import Mathlib.Data.List.Sort
import Mathlib.Tactic

/-!
# Symbols by address

`create_symbol_addr_search_index` of `services/tcf_elf.c` gives a section a table of its symbols in
the order of their addresses, and `elf_find_symbol_by_address` searches it: an entry holds up to the
next one, and the last one up to the end of the section.

The symbols of a file are as `elf_load` has them, with their names looked up. `qsort` may leave
entries that compare as equal in any order.

Main results:

* `findLoop_eq`     — the search comes to the last entry that is not behind the address;
* `unpack_section`  — the symbol of an entry belongs to the section;
* `right_iff`       — the sections and addresses for which this is the symbol at the address.
-/

namespace TcfAgent.SymbolAddresses

abbrev Word := BitVec 64

/-! ## Symbols of a file -/

abbrev emPpc64 : Nat := 21

abbrev emArm : Nat := 40

abbrev emRiscv : Nat := 243

abbrev etRel : Nat := 1

abbrev sttNotype : Nat := 0

abbrev sttFunc : Nat := 2

abbrev sttSection : Nat := 3

abbrev sttGnuIfunc : Nat := 10

abbrev sttArmTfunc : Nat := 13

/-- `Elf64_Sym`, or `Elf32_Sym`, and the name that `st_name` refers to. -/
structure Sym where
  name  : Option (List UInt8)
  shndx : Nat
  type  : Nat
  value : Word
deriving DecidableEq, Repr

/-- `ELF_Section`; one that is not a symbol table has no symbols. -/
structure Section where
  name    : Option (List UInt8)
  addr    : Word
  size    : Word
  symbols : List Sym
deriving DecidableEq, Repr

/-- `ELF_File`. `descriptor` is the address that a function descriptor has after relocation. -/
structure ElfFile where
  machine    : Nat
  type       : Nat
  flags      : BitVec 32
  sectionOpd : Nat
  sections   : List Section
  descriptor : Word → Word

/-- `ELF_SymbolInfo` -/
structure SymbolInfo where
  symSection   : Nat
  symIndex     : Nat
  inSection    : Option Nat
  sectionIndex : Nat
  name         : Option (List UInt8)
  type         : Nat
  value        : Word
deriving DecidableEq, Repr

/-- `ELF_SecSymbol` -/
structure SecSymbol where
  address : Word
  tbl     : Nat
  index   : Nat
deriving DecidableEq, Repr

variable (f : ElfFile)

/-- `IS_PPC64_FUNC_OPD` -/
def isFuncOpd (info : SymbolInfo) : Bool :=
  f.machine == emPpc64 && (f.flags &&& 3).toNat < 2 && info.sectionIndex == f.sectionOpd &&
    (info.type == sttFunc || info.type == sttNotype)

/-- `IS_PPC64_FUNC_DOT` -/
def isFuncDot (info : SymbolInfo) : Bool :=
  f.machine == emPpc64 && (f.flags &&& 3).toNat < 2 && info.type == sttFunc &&
    info.name.any fun s => s.head? == some 0x2e

/-- `value & ~(U8_T)1` -/
def clearLow (value : Word) : Word := value &&& ~~~1

/-- `unpack_elf_symbol_info` -/
def unpack (m n : Nat) (s : Sym) : SymbolInfo :=
  let inSection := if 0 < s.shndx ∧ s.shndx < f.sections.length then some s.shndx else none
  let ofSection := (inSection.bind fun i => f.sections[i]?).filter fun sec => s.value == sec.addr
  let name := if s.name = none ∧ s.type = sttSection then ofSection.bind (·.name) else s.name
  let info : SymbolInfo := ⟨m, n, inSection, s.shndx, name, s.type, s.value⟩
  if f.machine = emArm then
    if s.type = sttFunc ∨ s.type = sttArmTfunc then
      { info with value := clearLow s.value, type := sttFunc }
    else info
  else if isFuncOpd f info then { info with type := sttFunc }
  else info

/-- The name of a symbol that the RISC-V port of binutils adds. -/
def isLocalLabel (info : SymbolInfo) : Bool := info.name.any fun s => [0x2e, 0x4c].isPrefixOf s

/-- A section that can be asked for: the first entry of the table is none. -/
structure SectionIndex where
  index : Nat
  pos   : 0 < index
  lt    : index < f.sections.length

variable {f}

def SectionIndex.get (sec : SectionIndex f) : Section := f.sections.get ⟨sec.index, sec.lt⟩

/-- The values of a relocatable file count from where the section is. -/
def SectionIndex.base (sec : SectionIndex f) : Word := if f.type = etRel then sec.get.addr else 0

/-- What the section gets for the symbol `s`, which is number `n` of the table `m`. -/
def secSymbol (sec : SectionIndex f) (m n : Nat) (s : Sym) : Option SecSymbol :=
  let info := unpack f m n s
  if f.machine = emRiscv ∧ f.type = etRel ∧ isLocalLabel info then none
  else if f.machine = emPpc64 then
    let addr := info.value + sec.base
    if isFuncOpd f info then some ⟨f.descriptor addr, m, n⟩
    else if info.inSection = some sec.index ∧ ¬ isFuncDot f info ∧ info.type ≠ sttGnuIfunc then
      some ⟨addr, m, n⟩
    else none
  else if s.shndx = sec.index ∧ s.type ≠ sttGnuIfunc then
    let addr := s.value + sec.base
    let isCode := s.type == sttFunc || s.type == sttArmTfunc
    some ⟨if f.machine == emArm && isCode then clearLow addr else addr, m, n⟩
  else none

/-- Symbol `n` of the table `m`. -/
def ElfFile.symbol (f : ElfFile) (m n : Nat) : Option Sym := f.sections[m]?.bind (·.symbols[n]?)

/-- The loops over the tables and their symbols; the first of each is skipped. -/
def secSymbols (sec : SectionIndex f) : List SecSymbol :=
  (List.range' 1 (f.sections.length - 1)).flatMap fun m =>
    (List.range' 1 ((f.sections[m]?.elim 0 (·.symbols.length)) - 1)).filterMap fun n =>
      (f.symbol m n).bind (secSymbol sec m n)

/-! ## The search -/

/-- `section_symbol_comparator` does not give a positive number. -/
def SecSymbol.Le (x y : SecSymbol) : Prop :=
  x.address < y.address ∨ x.address = y.address ∧ x.index ≤ y.index

instance : DecidableRel SecSymbol.Le := fun x y =>
  inferInstanceAs (Decidable (x.address < y.address ∨ x.address = y.address ∧ x.index ≤ y.index))

/-- `qsort` with this comparator. -/
structure QSort where
  sort   : List SecSymbol → List SecSymbol
  perm   : ∀ l, (sort l).Perm l
  sorted : ∀ l, (sort l).Pairwise SecSymbol.Le

inductive Failed where
  | assertion | outOfBounds
deriving DecidableEq, Repr

/-- Where the entry `k` ends. -/
def nextAddress (table : List SecSymbol) (secEnd : Word) (k : Nat) : Word :=
  (table[k + 1]?).elim secEnd (·.address)

/-- The loop of `elf_find_symbol_by_address`. -/
def findLoop (table : List SecSymbol) (secEnd addr : Word) :
    (fuel l h : Nat) → Except Failed (Option Nat)
  | 0, _, _ => .ok none
  | fuel + 1, l, h =>
    if l < h then
      let k := (h + l) / 2
      match table[k]? with
      | none => .error .outOfBounds
      | some info =>
        let next := nextAddress table secEnd k
        if addr < info.address then findLoop table secEnd addr fuel l k
        else if next < info.address then .error .assertion
        else if next ≤ addr then findLoop table secEnd addr fuel (k + 1) h
        else .ok (some k)
    else .ok none

/-- The symbol that is found, and `addr_index`. -/
structure Found where
  info      : SymbolInfo
  addrIndex : Nat
deriving DecidableEq, Repr

/-- The symbol of the entry `k`, and what is asserted of it. -/
def foundAt (sec : SectionIndex f) (table : List SecSymbol) (k : Nat) :
    Except Failed (Option Found) :=
  match table[k]?.bind fun e => (f.symbol e.tbl e.index).map (unpack f e.tbl e.index) with
  | none => .error .outOfBounds
  | some info =>
    if isFuncOpd f info ∨ info.inSection = some sec.index then .ok (some ⟨info, k⟩)
    else .error .assertion

/-- `elf_find_symbol_by_address` -/
def findSymbolByAddress (q : QSort) (sec : SectionIndex f) (addr : Word) :
    Except Failed (Option Found) :=
  if addr < sec.get.addr then .ok none
  else
    let table := q.sort (secSymbols sec)
    match findLoop table (sec.get.addr + sec.get.size) addr table.length 0 table.length with
    | .error e => .error e
    | .ok none => .ok none
    | .ok (some k) => foundAt sec table k

/-! ## What is to be found -/

/-- Behind the last address of the section. -/
def SectionIndex.endOf (sec : SectionIndex f) : Nat := sec.get.addr.toNat + sec.get.size.toNat

/-- The last symbol that is not behind the address. -/
def IsLast (sec : SectionIndex f) (addr : Word) : Option Found → Prop
  | none => ∀ e ∈ secSymbols sec, addr < e.address
  | some found => ∃ e ∈ secSymbols sec, e.address ≤ addr ∧
      (∀ e' ∈ secSymbols sec, e'.address ≤ addr → e'.Le e) ∧
      (f.symbol e.tbl e.index).map (unpack f e.tbl e.index) = some found.info

/-- No assertion fails, and the symbol is found where the section has the address. -/
def Right (q : QSort) (sec : SectionIndex f) (addr : Word) : Prop :=
  sec.get.addr ≤ addr → ∃ r, findSymbolByAddress q sec addr = .ok r ∧
    (addr.toNat < sec.endOf → IsLast sec addr r) ∧ (sec.endOf ≤ addr.toNat → r = none)

/-- The address is in front of the section or of all symbols, or inside the section with a symbol
behind it; or it is behind all symbols, none of them is behind the section, and the section ends in
front of the end of the address space. -/
def Bounded (sec : SectionIndex f) (addr : Word) : Prop :=
  addr < sec.get.addr ∨ (∀ e ∈ secSymbols sec, addr < e.address) ∨
  (addr.toNat < sec.endOf ∧ ∃ e ∈ secSymbols sec, addr < e.address) ∨
  sec.endOf < 2 ^ 64 ∧ ∀ e ∈ secSymbols sec, e.address ≤ addr ∧ e.address.toNat ≤ sec.endOf

/-! ## The loop -/

/-- The last of those with a property. -/
theorem exists_last {α : Type} (p : α → Prop) {l : List α} (h : ∃ x ∈ l, p x) :
    ∃ (t : Nat) (x : α), l[t]? = some x ∧ p x ∧ ∀ k y, t < k → l[k]? = some y → ¬ p y := by
  induction l with
  | nil =>
    obtain ⟨x, hx, -⟩ := h
    cases hx
  | cons a l ih =>
    by_cases hRest : ∃ x ∈ l, p x
    · obtain ⟨t, x, hGet, hp, hAfter⟩ := ih hRest
      refine ⟨t + 1, x, by simpa using hGet, hp, ?_⟩
      intro k y hk hy
      obtain ⟨k, rfl⟩ := Nat.exists_eq_add_of_lt hk
      exact hAfter (t + 1 + k) y (by omega) (by simpa using hy)
    · obtain ⟨x, hx, hp⟩ := h
      rcases List.mem_cons.mp hx with rfl | hx
      · refine ⟨0, x, rfl, hp, ?_⟩
        intro k y hk hy hpy
        obtain ⟨k, rfl⟩ := Nat.exists_eq_add_of_lt hk
        exact hRest ⟨y, List.mem_of_getElem? (by simpa using hy), hpy⟩
      · exact absurd ⟨x, hx, hp⟩ hRest

theorem SecSymbol.Le.address {x y : SecSymbol} (h : x.Le y) : x.address ≤ y.address := by
  rcases h with h | ⟨h, -⟩
  · bv_omega
  · exact BitVec.le_of_eq h

section

variable {table : List SecSymbol} {secEnd addr : Word} {j k t l h fuel : Nat} {x y e : SecSymbol}

theorem le_of_sorted (hSorted : table.Pairwise SecSymbol.Le) (hj : table[j]? = some x)
    (hk : table[k]? = some y) (hLe : j ≤ k) : x.Le y := by
  obtain ⟨hLower, rfl⟩ := List.getElem?_eq_some_iff.mp hj
  obtain ⟨hUpper, rfl⟩ := List.getElem?_eq_some_iff.mp hk
  rcases Nat.lt_or_eq_of_le hLe with hLt | rfl
  · exact List.pairwise_iff_getElem.mp hSorted j k hLower hUpper hLt
  · exact .inr ⟨rfl, le_rfl⟩

/-- All entries are behind the address. -/
theorem findLoop_none (hBehind : ∀ y ∈ table, addr < y.address)
    (hBound : h ≤ table.length) : findLoop table secEnd addr fuel l h = .ok none := by
  induction fuel generalizing h with
  | zero => rfl
  | succ fuel ih =>
    rw [findLoop]
    split_ifs with hLt
    · have hMiddle : (h + l) / 2 < table.length := by omega
      simp only [List.getElem?_eq_getElem hMiddle]
      rw [if_pos (hBehind _ (List.getElem_mem hMiddle)), ih (by omega)]
    · rfl

theorem findLoop_empty (hEmpty : h ≤ l) : findLoop table secEnd addr fuel l h = .ok none := by
  rcases fuel with _ | fuel
  · rfl
  · rw [findLoop, if_neg (by omega)]

/-- What the loop makes of the last entry that is not behind the address. -/
def atLast (table : List SecSymbol) (secEnd addr : Word) (t : Nat) (e : SecSymbol) :
    Except Failed (Option Nat) :=
  if nextAddress table secEnd t < e.address then .error .assertion
  else if nextAddress table secEnd t ≤ addr then .ok none
  else .ok (some t)

theorem findLoop_eq (hSorted : table.Pairwise SecSymbol.Le) (hGet : table[t]? = some e)
    (hFront : e.address ≤ addr)
    (hAfter : ∀ k y, t < k → table[k]? = some y → ¬ y.address ≤ addr)
    (hLow : l ≤ t) (hHigh : t < h) (hBound : h ≤ table.length) (hFuel : h - l ≤ fuel) :
    findLoop table secEnd addr fuel l h = atLast table secEnd addr t e := by
  induction fuel generalizing l h with
  | zero => omega
  | succ fuel ih =>
    rw [findLoop, if_pos (by omega)]
    have hMiddle : (h + l) / 2 < table.length := by omega
    have hInfo := List.getElem?_eq_getElem hMiddle
    simp only [hInfo]
    rcases Nat.lt_trichotomy ((h + l) / 2) t with hLess | hSame | hMore
    · -- The next entry is not behind the address either.
      have hNextIn : (h + l) / 2 + 1 < table.length := by omega
      have hNext := List.getElem?_eq_getElem hNextIn
      have hUp := (le_of_sorted hSorted hInfo hNext (Nat.le_succ _)).address
      have hUpTo := (le_of_sorted hSorted hNext hGet hLess).address
      have hEnd : nextAddress table secEnd ((h + l) / 2) = table[(h + l) / 2 + 1].address := by
        rw [nextAddress, hNext]
        rfl
      rw [hEnd, if_neg (by bv_omega), if_neg (by bv_omega), if_pos (by bv_omega)]
      exact ih (by omega) hHigh hBound (by omega)
    · subst hSame
      obtain rfl : table[(h + l) / 2] = e := Option.some.inj (hInfo.symm.trans hGet)
      rw [if_neg (by bv_omega), atLast]
      split_ifs with hAssert hPast
      · rfl
      · -- The address is behind the section, so that there is no other entry.
        have hNone : table.length ≤ (h + l) / 2 + 1 := by
          by_contra hIn
          have hNext := List.getElem?_eq_getElem (show (h + l) / 2 + 1 < table.length by omega)
          rw [nextAddress, hNext] at hPast
          exact hAfter _ _ (Nat.lt_succ_self _) hNext hPast
        exact findLoop_empty (by omega)
      · rfl
    · rw [if_pos (by have := hAfter _ _ hMore hInfo; bv_omega)]
      exact ih hLow hMore (by omega) (by omega)

end

/-! ## The symbol of an entry -/

section

variable {sec : SectionIndex f} {m n : Nat} {s : Sym} {e : SecSymbol}

/-- What can come after the section of a symbol is set does not change it. -/
@[simp] theorem unpack_inSection :
    (unpack f m n s).inSection =
      if 0 < s.shndx ∧ s.shndx < f.sections.length then some s.shndx else none := by
  unfold unpack
  dsimp only
  split_ifs <;> rfl

theorem unpack_section (h : secSymbol sec m n s = some e) :
    isFuncOpd f (unpack f m n s) = true ∨ (unpack f m n s).inSection = some sec.index := by
  unfold secSymbol at h
  dsimp only at h
  split_ifs at h with hLabel hPpc hOpd hIn hIndex
  · exact .inl hOpd
  · exact .inr hIn.1
  all_goals
    right
    rw [unpack_inSection, hIndex.1, if_pos ⟨sec.pos, sec.lt⟩]

theorem secSymbol_eq (h : secSymbol sec m n s = some e) : e.tbl = m ∧ e.index = n := by
  unfold secSymbol at h
  dsimp only at h
  split_ifs at h <;> cases h <;> exact ⟨rfl, rfl⟩

theorem mem_secSymbols (h : e ∈ secSymbols sec) :
    ∃ s, f.symbol e.tbl e.index = some s ∧ secSymbol sec e.tbl e.index s = some e := by
  obtain ⟨m, -, hm⟩ := List.mem_flatMap.mp h
  obtain ⟨n, -, hn⟩ := List.mem_filterMap.mp hm
  obtain ⟨s, hSymbol, hSec⟩ := Option.bind_eq_some_iff.mp hn
  obtain ⟨rfl, rfl⟩ := secSymbol_eq hSec
  exact ⟨s, hSymbol, hSec⟩

/-- The second assertion holds. -/
theorem foundAt_eq {table : List SecSymbol} {k : Nat} (hGet : table[k]? = some e)
    (hMem : e ∈ secSymbols sec) : ∃ info, foundAt sec table k = .ok (some ⟨info, k⟩) ∧
      (f.symbol e.tbl e.index).map (unpack f e.tbl e.index) = some info := by
  obtain ⟨s, hSymbol, hSec⟩ := mem_secSymbols hMem
  refine ⟨unpack f e.tbl e.index s, ?_, by rw [hSymbol]; rfl⟩
  unfold foundAt
  simp only [hGet, Option.bind_some, hSymbol, Option.map_some]
  rw [if_pos (unpack_section hSec)]

end

/-! ## The whole search -/

section

variable (q : QSort) {sec : SectionIndex f} {addr : Word}

theorem mem_sort {e : SecSymbol} : e ∈ q.sort (secSymbols sec) ↔ e ∈ secSymbols sec :=
  (q.perm _).mem_iff

/-- Without a symbol that is not behind the address, nothing is found. -/
theorem find_none (hBehind : ∀ e ∈ secSymbols sec, addr < e.address) :
    findSymbolByAddress q sec addr = .ok none := by
  unfold findSymbolByAddress
  dsimp only
  split_ifs
  · rfl
  · rw [findLoop_none (fun y hy => hBehind y ((mem_sort q).mp hy)) le_rfl]

/-- With one, the last of them is found, unless no symbol is behind the address and the section
ends in front of it, or of the symbol. -/
theorem find_some (hStart : sec.get.addr ≤ addr)
    (hFront : ∃ e ∈ secSymbols sec, e.address ≤ addr) :
    ∃ e ∈ secSymbols sec, ∃ found, IsLast sec addr (some found) ∧ e.address ≤ addr ∧
      ((∃ e' ∈ secSymbols sec, addr < e'.address) ∧
          findSymbolByAddress q sec addr = .ok (some found) ∨
        (∀ e' ∈ secSymbols sec, e'.address ≤ e.address) ∧
          findSymbolByAddress q sec addr =
            if sec.get.addr + sec.get.size < e.address then .error .assertion
            else if sec.get.addr + sec.get.size ≤ addr then .ok none
            else .ok (some found)) := by
  obtain ⟨e₀, hMem₀, hFront₀⟩ := hFront
  obtain ⟨t, e, hGet, hLe, hAfter⟩ := exists_last (fun e : SecSymbol => e.address ≤ addr)
    ⟨e₀, (mem_sort q).mpr hMem₀, hFront₀⟩
  have hMem := (mem_sort q).mp (List.mem_of_getElem? hGet)
  have hIn := (List.getElem?_eq_some_iff.mp hGet).1
  obtain ⟨info, hFound, hInfo⟩ := foundAt_eq hGet hMem
  have hLast : ∀ e' ∈ secSymbols sec, e'.address ≤ addr → e'.Le e := by
    intro e' hMem' hLe'
    obtain ⟨k, hk⟩ := List.mem_iff_getElem?.mp ((mem_sort q).mpr hMem')
    exact le_of_sorted (q.sorted _) hk hGet
      (Nat.le_of_not_lt fun hLater => hAfter k e' hLater hk hLe')
  refine ⟨e, hMem, ⟨info, t⟩, ⟨e, hMem, hLe, hLast, hInfo⟩, hLe, ?_⟩
  have hFind : findSymbolByAddress q sec addr =
      match atLast (q.sort (secSymbols sec)) (sec.get.addr + sec.get.size) addr t e with
      | .error e => .error e
      | .ok none => .ok none
      | .ok (some k) => foundAt sec (q.sort (secSymbols sec)) k := by
    unfold findSymbolByAddress
    dsimp only
    rw [if_neg (by bv_omega), findLoop_eq (q.sorted _) hGet hLe hAfter (Nat.zero_le t) hIn le_rfl
      (Nat.sub_le _ _)]
  rw [hFind, atLast]
  rcases hNext : (q.sort (secSymbols sec))[t + 1]? with _ | y
  · -- The entry is the last one of the table.
    right
    constructor
    · intro e' hMem'
      obtain ⟨k, hk⟩ := List.mem_iff_getElem?.mp ((mem_sort q).mpr hMem')
      have hBound := (List.getElem?_eq_some_iff.mp hk).1
      have hEnd := List.getElem?_eq_none_iff.mp hNext
      exact (le_of_sorted (q.sorted _) hk hGet (by omega)).address
    · have hEnd : nextAddress (q.sort (secSymbols sec)) (sec.get.addr + sec.get.size) t =
          sec.get.addr + sec.get.size := by
        rw [nextAddress, hNext]
        rfl
      rw [hEnd]
      split_ifs
      · rfl
      · rfl
      · exact hFound
  · left
    have hBehind := hAfter _ y (Nat.lt_succ_self t) hNext
    have hEnd : nextAddress (q.sort (secSymbols sec)) (sec.get.addr + sec.get.size) t =
        y.address := by
      rw [nextAddress, hNext]
      rfl
    refine ⟨⟨y, (mem_sort q).mp (List.mem_of_getElem? hNext), by bv_omega⟩, ?_⟩
    rw [hEnd, if_neg (by bv_omega), if_neg hBehind]
    exact hFound

/-- The symbol at an address is found, or that there is none, exactly in these cases. -/
theorem right_iff : Right q sec addr ↔ Bounded sec addr := by
  by_cases hStart : sec.get.addr ≤ addr
  swap
  · exact iff_of_true (fun h => absurd h hStart) (.inl (by bv_omega))
  by_cases hFront : ∃ e ∈ secSymbols sec, e.address ≤ addr
  swap
  · have hBehind : ∀ e ∈ secSymbols sec, addr < e.address := by
      intro e hMem
      have hNot : ¬ e.address ≤ addr := fun hLe => hFront ⟨e, hMem, hLe⟩
      bv_omega
    exact iff_of_true (fun _ => ⟨none, find_none q hBehind, fun _ => hBehind, fun _ => rfl⟩)
      (.inr (.inl hBehind))
  obtain ⟨e, hMem, found, hLast, hLe, hFind⟩ := find_some q hStart hFront
  have hNotBehind : ¬ ∀ e ∈ secSymbols sec, addr < e.address := by
    intro hBehind
    have := hBehind e hMem
    bv_omega
  -- what is behind the symbol: another one, or the end of the section
  rcases hFind with ⟨hMore, hFind⟩ | ⟨hAll, hFind⟩
  · constructor
    · intro hRight
      obtain ⟨r, hr, -, hOut⟩ := hRight hStart
      refine .inr (.inr (.inl ⟨?_, hMore⟩))
      by_contra hEnd
      rw [hFind, hOut (by omega)] at hr
      cases hr
    · intro hBounded hIn
      refine ⟨some found, hFind, fun _ => hLast, fun hOut => ?_⟩
      obtain ⟨e', hMem', hBehind⟩ := hMore
      rcases hBounded with h | h | ⟨h, -⟩ | ⟨-, h⟩
      · bv_omega
      · exact absurd h hNotBehind
      · omega
      · have := (h e' hMem').1
        bv_omega
  · have hNoMore : ¬ ∃ e ∈ secSymbols sec, addr < e.address := by
      rintro ⟨e', hMem', hBehind⟩
      have := hAll e' hMem'
      bv_omega
    -- `addr + size` of the code wraps
    have hEndOf : (sec.get.addr + sec.get.size).toNat = sec.endOf % 2 ^ 64 :=
      BitVec.toNat_add _ _
    have hSize := sec.get.size.isLt
    have hBase := sec.get.addr.isLt
    have hNotNone : ¬ IsLast sec addr none := hNotBehind
    constructor
    · intro hRight
      obtain ⟨r, hr, hInside, hOut⟩ := hRight hStart
      rw [hFind] at hr
      have hSmall : sec.endOf < 2 ^ 64 := by
        -- Otherwise the end is in front of the section, and nothing is found.
        by_contra hLarge
        have hWrapped : sec.get.addr + sec.get.size ≤ addr := by
          rw [BitVec.le_def] at hStart ⊢
          unfold SectionIndex.endOf at hEndOf hLarge
          omega
        split_ifs at hr
        cases hr
        exact hNotNone (hInside (by have := addr.isLt; omega))
      refine .inr (.inr (.inr ⟨hSmall, ?_⟩))
      have hAssert : ¬ sec.get.addr + sec.get.size < e.address := by
        intro hFails
        rw [if_pos hFails] at hr
        cases hr
      intro e' hMem'
      have hUp := hAll e' hMem'
      refine ⟨by bv_omega, ?_⟩
      rw [BitVec.lt_def] at hAssert
      rw [BitVec.le_def] at hUp
      omega
    · intro hBounded _
      obtain ⟨hSmall, hEnds⟩ : sec.endOf < 2 ^ 64 ∧
          ∀ e ∈ secSymbols sec, e.address ≤ addr ∧ e.address.toNat ≤ sec.endOf := by
        rcases hBounded with h | h | ⟨-, h⟩ | h
        · bv_omega
        · exact absurd h hNotBehind
        · exact absurd h hNoMore
        · exact h
      have hEnd : (sec.get.addr + sec.get.size).toNat = sec.endOf := by
        rw [hEndOf, Nat.mod_eq_of_lt hSmall]
      have hBelow := (hEnds e hMem).2
      rw [if_neg (by rw [BitVec.lt_def]; omega)] at hFind
      by_cases hOut : sec.get.addr + sec.get.size ≤ addr
      · rw [if_pos hOut] at hFind
        rw [BitVec.le_def] at hOut
        exact ⟨none, hFind, fun hIn => by omega, fun _ => rfl⟩
      · rw [if_neg hOut] at hFind
        rw [BitVec.le_def] at hOut
        exact ⟨some found, hFind, fun _ => hLast, fun hNot => by omega⟩

end

/-! ## A symbol behind its section -/

/-- An insertion sort. -/
def insertionSort : QSort where
  sort   := List.insertionSort SecSymbol.Le
  perm   := List.perm_insertionSort _
  sorted l := by
    have : Std.Total SecSymbol.Le := ⟨fun x y => by unfold SecSymbol.Le; bv_omega⟩
    have : IsTrans SecSymbol SecSymbol.Le := ⟨fun x y z => by unfold SecSymbol.Le; bv_omega⟩
    exact List.pairwise_insertionSort SecSymbol.Le l

/-- A section of 16 bytes with a symbol at its start and one behind its end. -/
def twoSymbols : ElfFile where
  machine    := 62
  type       := 2
  flags      := 0
  sectionOpd := 0
  sections   := [⟨none, 0, 0, []⟩, ⟨none, 0x1000, 0x10, []⟩,
    ⟨none, 0, 0, [⟨none, 0, 0, 0⟩, ⟨none, 1, sttFunc, 0x1000⟩, ⟨none, 1, sttFunc, 0x1018⟩]⟩]
  descriptor := id

/-- Behind the end of the section the symbol at its start is found, and at the symbol that is
behind the end an assertion fails. -/
theorem not_right :
    ¬ Right insertionSort (f := twoSymbols) ⟨1, by decide, by decide⟩ 0x1014 ∧
      ¬ Right insertionSort (f := twoSymbols) ⟨1, by decide, by decide⟩ 0x1018 := by
  constructor
  · intro hRight
    obtain ⟨r, hr, -, hOut⟩ := hRight (by decide)
    rw [hOut (by decide)] at hr
    exact absurd hr (by decide +kernel)
  · intro hRight
    obtain ⟨r, hr, -⟩ := hRight (by decide)
    have hFails :
      findSymbolByAddress insertionSort (f := twoSymbols) ⟨1, by decide, by decide⟩ 0x1018 =
        .error .assertion := by decide +kernel
    rw [hFails] at hr
    cases hr

end TcfAgent.SymbolAddresses
