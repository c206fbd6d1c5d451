import TcfAgent.Lib.Loops
import TcfAgent.Framework.JsonText

/-!
# The memory map of the ELF files of a process

`elf_get_map` of `services/tcf_elf.c`, from the regions that `search_regions` has found. Two regions
of one file that overlap are told apart by a program header of the file. The scan of the headers has
the counter of the scan of the regions, which goes on behind the header that was found, or behind
the last one.

Main results:

* `normalises_iff` — when the map is normalised, each pair of regions in its turn.
-/

namespace TcfAgent.ElfMap

open TcfAgent.Lib TcfAgent.Lib.Program TcfAgent.JsonText

/-! ## Regions and program headers -/

abbrev Addr := BitVec 64

/-- `MemoryRegion`, what the scan reads of it. -/
structure MemoryRegion where
  addr     : Addr
  size     : Addr
  fileOffs : Addr
  fileSize : Addr
  fileName : Option Text
deriving DecidableEq, Repr

/-- `ELF_PHeader` -/
structure PHeader where
  type     : Nat
  offset   : Addr
  fileSize : Addr
  memSize  : Addr
deriving DecidableEq, Repr

/-- `PT_LOAD` -/
def ptLoad : Nat := 1

/-- Ambiguity: overlapping regions of one file. -/
def Overlapping (m r : MemoryRegion) : Prop :=
  m.fileSize = m.size ∧ m.fileOffs < r.fileOffs ∧ m.fileOffs + m.fileSize > r.fileOffs ∧
    m.fileName ≠ none ∧ r.fileName ≠ none ∧ m.fileName = r.fileName

instance (m r : MemoryRegion) : Decidable (Overlapping m r) := inferInstanceAs (Decidable (_ ∧ _))

/-- A header that makes the region shorter. -/
def Shorter (m : MemoryRegion) (p : PHeader) : Prop :=
  p.type = ptLoad ∧ p.offset = m.fileOffs ∧ p.memSize < m.size

instance (m : MemoryRegion) (p : PHeader) : Decidable (Shorter m p) :=
    inferInstanceAs (Decidable (_ ∧ _))

/-- The scan of the headers: where the counter stops, and the header that was found. -/
def findHeader (m : MemoryRegion) (i : Nat) : List PHeader → Nat × Option PHeader
  | [] => (i, none)
  | p :: pheaders => if Shorter m p then (i, some p) else findHeader m (i + 1) pheaders

/-- What the header makes of the two regions. -/
def adjust (p : PHeader) (m r : MemoryRegion) : MemoryRegion × MemoryRegion :=
  let m := { m with fileSize := p.memSize, size := p.memSize }
  if m.fileOffs + m.size > r.fileOffs ∧ p.memSize = p.fileSize then
    let diff := m.fileOffs + m.fileSize - r.fileOffs
    (m, { r with
      fileOffs := r.fileOffs + diff
      fileSize := r.fileSize - diff
      addr := r.addr + diff
      size := r.size - diff })
  else (m, r)

/-! ## The scan -/

/-- Two regions, before and after they were changed. -/
structure Change where
  m  : MemoryRegion
  r  : MemoryRegion
  m' : MemoryRegion
  r' : MemoryRegion
deriving DecidableEq, Repr

/-- The map, the pairs that have been examined, and the changes. -/
structure State where
  regions  : List MemoryRegion
  examined : List Nat
  changes  : List Change
deriving DecidableEq, Repr

def State.start (regions : List MemoryRegion) : State := ⟨regions, [], []⟩

/-- A region outside of the map, or a file that is `NULL`. -/
inductive Fault where
  | outside
  | nullFile
deriving DecidableEq, Repr

/-- One round of the loop; `elfOpen` are the program headers of a file, if it can be opened. -/
def examine (elfOpen : Text → Option (List PHeader)) (i : Nat) :
    Program State Fault (Nat ⊕ Unit) := do
  let s ← get
  if i + 1 < s.regions.length then
    match s.regions[i]?, s.regions[i + 1]? with
    | some m, some r =>
      modify fun s => { s with examined := s.examined ++ [i] }
      if Overlapping m r then
        match r.fileName.bind elfOpen with
        | none => raise .nullFile
        | some pheaders =>
          match findHeader m 0 pheaders with
          | (i', none) => return .inl (i' + 1)
          | (i', some p) =>
            let (m', r') := adjust p m r
            modify fun s => { s with
              regions := (s.regions.set i m').set (i + 1) r'
              changes := s.changes ++ [⟨m, r, m', r'⟩] }
            return .inl (i' + 1)
      else return .inl (i + 1)
    | _, _ => raise .outside
  else return .inr ⟨⟩

/-- The loop of `elf_get_map` over the regions. -/
def normalise (elfOpen : Text → Option (List PHeader)) : Program State Fault Unit :=
    loop (examine elfOpen) 0

/-- `elf_get_map`, with what `search_regions` has found in the maps of the process, if there are
any. -/
def elfGetMap (elfOpen : Text → Option (List PHeader))
    (found : Option (List MemoryRegion)) (n : Nat) :
    Option (Except Fault Int × State) :=
  match found with
  | none => some (.ok (-1), .start [])
  | some regions =>
      ((normalise elfOpen).run n (.start regions)).map fun (r, s) => (r.map fun _ => 0, s)

/-! ## What is expected -/

/-- The sizes are right, the first region ends where the second one begins, and the addresses of the
second one are those of the file as before. -/
def Change.Tidy (c : Change) : Prop :=
  c.m'.fileSize = c.m'.size ∧ c.r'.fileSize = c.r'.size ∧
    c.m'.fileOffs + c.m'.fileSize = c.r'.fileOffs ∧
    c.r'.addr - c.r'.fileOffs = c.r.addr - c.r.fileOffs

instance (c : Change) : Decidable c.Tidy := inferInstanceAs (Decidable (_ ∧ _))

/-- The scan comes to its end without a fault, the pairs are examined one after the other, and every
change is tidy. -/
def Normalises (elfOpen : Text → Option (List PHeader))
    (found : Option (List MemoryRegion)) : Prop :=
  ∃ n result t, elfGetMap elfOpen found n = some (.ok result, t) ∧
    t.examined = List.range (t.regions.length - 1) ∧ ∀ c ∈ t.changes, c.Tidy

/-- The header ends where the second region begins, or behind it when all of it is in the file; and
the second region has one size. -/
def Fits (p : PHeader) (m r : MemoryRegion) : Prop :=
  r.fileSize = r.size ∧ (m.fileOffs + p.memSize = r.fileOffs ∨
    m.fileOffs + p.memSize > r.fileOffs ∧ p.memSize = p.fileSize)

/-- From the region `m` at `i` on: a file of two regions that overlap can be opened, its header has
the number of the first of them, or no header is found and that is how many there are; for the last
two regions it can be more. -/
def Settled (elfOpen : Text → Option (List PHeader)) (i : Nat) (m : MemoryRegion) :
    List MemoryRegion → Prop
  | [] => True
  | r :: rest =>
    if Overlapping m r then
      ∃ pheaders, r.fileName.bind elfOpen = some pheaders ∧
        ((findHeader m 0 pheaders).1 = i ∨ rest = [] ∧ i ≤ (findHeader m 0 pheaders).1) ∧
        match (findHeader m 0 pheaders).2 with
        | none => Settled elfOpen (i + 1) r rest
        | some p => Fits p m r ∧ Settled elfOpen (i + 1) (adjust p m r).2 rest
    else Settled elfOpen (i + 1) r rest

/-- All regions that were found are settled. -/
def AllSettled (elfOpen : Text → Option (List PHeader)) : Option (List MemoryRegion) → Prop
  | some (m :: rest) => Settled elfOpen 0 m rest
  | _ => True

/-! ## Rounds -/

section

variable {elfOpen : Text → Option (List PHeader)} {s t : State} {pre rest : List MemoryRegion}
  {m r : MemoryRegion} {p : PHeader} {pheaders : List PHeader} {n i k : Nat}

/-- Whether the change is tidy can be seen from the header. -/
theorem tidy_iff : Change.Tidy ⟨m, r, (adjust p m r).1, (adjust p m r).2⟩ ↔ Fits p m r := by
  unfold Change.Tidy Fits adjust
  dsimp only
  split
  · rename_i hCut
    constructor
    · rintro ⟨-, hSize, -, -⟩
      exact ⟨by simpa using hSize, .inr hCut⟩
    · rintro ⟨hSize, -⟩
      refine ⟨rfl, by rw [hSize], ?_, ?_⟩
      · ring
      · ring
  · rename_i hWhole
    constructor
    · rintro ⟨-, hSize, hEnd, -⟩
      exact ⟨hSize, .inl hEnd⟩
    · rintro ⟨hSize, hEnd | hCut⟩
      · exact ⟨rfl, hSize, hEnd, rfl⟩
      · exact absurd hCut hWhole

theorem examine_done (h : ¬ i + 1 < s.regions.length) :
    (examine elfOpen i).run n s = some (.ok (.inr ⟨⟩), s) := by
  simp [examine, h]

/-- The state when the pair at `i` is examined. -/
def State.at (s : State) (i : Nat) : State := { s with examined := s.examined ++ [i] }

theorem examine_run (h : s.regions = pre ++ m :: r :: rest) :
    (examine elfOpen pre.length).run n s = some (
    if Overlapping m r then
      match r.fileName.bind elfOpen with
      | none => (.error .nullFile, s.at pre.length)
      | some pheaders =>
        match findHeader m 0 pheaders with
        | (i', none) => (.ok (.inl (i' + 1)), s.at pre.length)
        | (i', some p) =>
            (.ok (.inl (i' + 1)), ⟨pre ++ (adjust p m r).1 :: (adjust p m r).2 :: rest,
            s.examined ++ [pre.length], s.changes ++ [⟨m, r, (adjust p m r).1, (adjust p m r).2⟩]⟩)
    else (.ok (.inl (pre.length + 1)), s.at pre.length)) := by
  obtain ⟨regions, examined, changes⟩ := s
  obtain rfl : regions = pre ++ m :: r :: rest := h
  have hInside : pre.length + 1 < (pre ++ m :: r :: rest).length := by
    simp only [List.length_append, List.length_cons]
    omega
  have hFirst : (pre ++ m :: r :: rest)[pre.length]? = some m := by simp
  have hSecond : (pre ++ m :: r :: rest)[pre.length + 1]? = some r := by simp
  simp only [examine, run_bind, run_get, Option.bind_some, andThen_ok, if_pos hInside,
    hFirst, hSecond,
    run_modify]
  split
  · rcases r.fileName.bind elfOpen with - | pheaders
    · rfl
    · dsimp only
      rcases findHeader m 0 pheaders with ⟨i', - | p⟩
      · rfl
      · simp
  · rfl

/-! ## Runs -/

/-- The scan at the region in front of `rest`, when all that was done before is as expected. -/
def Scanned (elfOpen : Text → Option (List PHeader)) (rest : List MemoryRegion) (i : Nat)
    (s : State) : Prop :=
  ∃ pre m, s.regions = pre ++ m :: rest ∧ (i = pre.length ∨ rest = [] ∧ pre.length ≤ i) ∧
    s.examined = List.range pre.length ∧ (∀ c ∈ s.changes, c.Tidy) ∧
      Settled elfOpen pre.length m rest

theorem scanned_step (h : Scanned elfOpen (r :: rest) i s) :
    ∃ i' t, (examine elfOpen i).run n s = some (.ok (.inl i'), t) ∧ Scanned elfOpen rest i' t := by
  obtain ⟨pre, m, hRegions, hAt, hExamined, hTidy, hSettled⟩ := h
  obtain rfl : i = pre.length := by
    rcases hAt with hAt | hAt
    · exact hAt
    · exact absurd hAt.1 (List.cons_ne_nil _ _)
  have hNext : s.examined ++ [pre.length] = List.range (pre ++ [m]).length := by
    rw [hExamined, List.length_append, List.length_singleton, List.range_succ]
  have hSplit : s.regions = (pre ++ [m]) ++ r :: rest := by
    rw [hRegions, List.append_assoc, List.singleton_append]
  have hGoOn : ∀ {i'} m', i' = pre.length ∨ rest = [] ∧ pre.length ≤ i' →
      i' + 1 = (pre ++ [m']).length ∨ rest = [] ∧ (pre ++ [m']).length ≤ i' + 1 := by
    rintro i' m' (rfl | ⟨hLast, hLe⟩)
    · exact .inl (by rw [List.length_append, List.length_singleton])
    · exact .inr ⟨hLast, by rw [List.length_append, List.length_singleton]; omega⟩
  rw [Settled] at hSettled
  rw [examine_run hRegions]
  by_cases hOverlap : Overlapping m r
  · rw [if_pos hOverlap] at hSettled ⊢
    obtain ⟨pheaders, hOpen, hIndex, hHeader⟩ := hSettled
    rw [hOpen]
    dsimp only
    rcases hFind : findHeader m 0 pheaders with ⟨i', - | p⟩
    · rw [hFind] at hIndex hHeader
      refine ⟨_, _, rfl, pre ++ [m], r, hSplit, hGoOn _ hIndex, hNext, hTidy, ?_⟩
      · rw [List.length_append, List.length_singleton]
        exact hHeader
    · rw [hFind] at hIndex hHeader
      refine ⟨_, _, rfl, pre ++ [(adjust p m r).1], (adjust p m r).2, ?_,
        hGoOn _ hIndex, ?_, ?_, ?_⟩
      · rw [List.append_assoc, List.singleton_append]
      · rw [hNext, List.length_append, List.length_append, List.length_singleton,
          List.length_singleton]
      · intro c hc
        rcases List.mem_append.1 hc with hc | hc
        · exact hTidy c hc
        · obtain rfl := List.mem_singleton.1 hc
          exact tidy_iff.2 hHeader.1
      · rw [List.length_append, List.length_singleton]
        exact hHeader.2
  · rw [if_neg hOverlap] at hSettled ⊢
    refine ⟨_, _, rfl, pre ++ [m], r, hSplit, .inl ?_, hNext, hTidy, ?_⟩
    · rw [List.length_append, List.length_singleton]
    · rw [List.length_append, List.length_singleton]
      exact hSettled

theorem normalise_runs (h : Settled elfOpen 0 m rest) : ∃ n t,
    (normalise elfOpen).run n (.start (m :: rest)) = some (.ok ⟨⟩, t) ∧
      t.examined = List.range (t.regions.length - 1) ∧ ∀ c ∈ t.changes, c.Tidy := by
  have hStart : Scanned elfOpen rest 0 (.start (m :: rest)) :=
    ⟨[], m, rfl, .inl rfl, rfl, fun c hc => absurd hc List.not_mem_nil, h⟩
  obtain ⟨u, t, hRun, hEnd⟩ := run_loop_items (n := rest.length + 1)
    (Q := fun _ t => t.examined = List.range (t.regions.length - 1) ∧ ∀ c ∈ t.changes, c.Tidy)
    hStart (Nat.lt_succ_self _) (fun r rest i s => scanned_step) fun i s hLast => by
      obtain ⟨pre, m, hRegions, hAt, hExamined, hTidy, -⟩ := hLast
      have hLength : s.regions.length = pre.length + 1 := by
        rw [hRegions, List.length_append, List.length_singleton]
      refine ⟨⟨⟩, s, examine_done (by omega), ?_, hTidy⟩
      rw [hExamined, hLength]
      rfl
  exact ⟨_, t, hRun, hEnd⟩

/-- A round inside of the map raises an exception or goes on. -/
theorem examine_cases (h : i + 1 < s.regions.length) :
    (∃ e t, (examine elfOpen i).run n s = some (.error e, t)) ∨
      ∃ i' t, (examine elfOpen i).run n s = some (.ok (.inl i'), t) ∧
        t.regions.length = s.regions.length ∧ t.examined = s.examined ++ [i] ∧
          s.changes <+: t.changes := by
  obtain ⟨pre, m, r, rest, hRegions, rfl⟩ : ∃ pre m r rest, s.regions = pre ++ m :: r :: rest ∧
    pre.length = i := by
    refine ⟨s.regions.take i, s.regions[i], s.regions[i + 1], s.regions.drop (i + 2), ?_, ?_⟩
    · rw [← List.drop_eq_getElem_cons, ← List.drop_eq_getElem_cons, List.take_append_drop]
    · rw [List.length_take]
      omega
  rw [examine_run hRegions]
  split
  · rcases r.fileName.bind elfOpen with - | pheaders
    · exact .inl ⟨_, _, rfl⟩
    · dsimp only
      rcases findHeader m 0 pheaders with ⟨i', - | p⟩
      · exact .inr ⟨_, _, rfl, rfl, rfl, List.prefix_refl _⟩
      · refine .inr ⟨_, _, rfl, ?_, rfl, List.prefix_append _ _⟩
        rw [hRegions]
        simp
  · exact .inr ⟨_, _, rfl, rfl, rfl, List.prefix_refl _⟩

/-- What a scan has examined and changed stays in the lists, and the pair where it goes on comes
next. -/
theorem loopFrom_examined {u : Unit} (h : loopFrom (examine elfOpen) n k i s = some (.ok u, t)) :
    t.regions.length = s.regions.length ∧ s.changes <+: t.changes ∧
      if i + 1 < s.regions.length then s.examined ++ [i] <+: t.examined else t.examined =
        s.examined := by
  induction k generalizing i s with
  | zero => cases h
  | succ k ih =>
    by_cases hInside : i + 1 < s.regions.length
    · rw [if_pos hInside]
      rcases examine_cases (n := n) hInside with ⟨e, s', hRun⟩ | ⟨i', s', hRun, hLength,
        hNext, hPrefix⟩
      · rw [loopFrom_error hRun] at h
        cases h
      · rw [loopFrom_continue hRun] at h
        obtain ⟨hLength', hChanges, hExamined⟩ := ih h
        refine ⟨hLength'.trans hLength, hPrefix.trans hChanges, ?_⟩
        rw [← hNext]
        split at hExamined
        · exact (List.prefix_append _ _).trans hExamined
        · rw [hExamined]
    · rw [if_neg hInside]
      rw [loopFrom_break (examine_done hInside)] at h
      obtain ⟨-, rfl⟩ := Prod.mk.inj (Option.some.inj h)
      exact ⟨rfl, List.prefix_refl _, rfl⟩

/-- Where a scan goes on that examines the pairs in their order. -/
theorem next_of_run {u : Unit} (h : loopFrom (examine elfOpen) n k (i + 1) s = some (.ok u, t))
    (hRegions : s.regions.length = (pre ++ m :: r :: rest).length)
    (hExamined : s.examined = List.range pre.length ++ [pre.length])
    (hAll : t.examined = List.range (t.regions.length - 1)) :
    i = pre.length ∨ rest = [] ∧ pre.length ≤ i := by
  obtain ⟨hLength, -, hNext⟩ := loopFrom_examined h
  rw [hLength, hRegions, List.length_append, List.length_cons, List.length_cons] at hAll
  rw [hRegions, List.length_append, List.length_cons, List.length_cons, hExamined,
    ← List.range_succ] at hNext
  split at hNext
  · left
    rw [hAll] at hNext
    obtain ⟨rest', hRest⟩ := hNext
    have hLonger := congrArg List.length hRest
    simp only [List.length_append, List.length_range, List.length_singleton] at hLonger
    have hAt := congrArg (·[pre.length + 1]?) hRest
    rw [List.append_assoc] at hAt
    simp only [List.getElem?_append_right (Nat.le_of_eq (List.length_range)), List.length_range,
      Nat.sub_self,
      List.singleton_append, List.getElem?_cons_zero] at hAt
    rw [List.getElem?_range (by omega)] at hAt
    exact Nat.succ.inj (Option.some.inj hAt)
  · rename_i hOutside
    rw [hAll] at hNext
    have hCount := congrArg List.length hNext
    rw [List.length_range, List.length_range] at hCount
    exact .inr ⟨List.eq_nil_of_length_eq_zero (by omega), by omega⟩

/-- A scan as expected comes from regions that are settled. -/
theorem settled_of_run {u : Unit}
    (h : loopFrom (examine elfOpen) n k pre.length s = some (.ok u, t))
    (hRegions : s.regions = pre ++ m :: rest) (hExamined : s.examined = List.range pre.length)
    (hAll : t.examined = List.range (t.regions.length - 1)) (hTidy : ∀ c ∈ t.changes, c.Tidy) :
    Settled elfOpen pre.length m rest := by
  induction rest generalizing k pre m s with
  | nil => trivial
  | cons r rest ih =>
    rcases k with - | k
    · cases h
    · have hRound := @examine_run elfOpen s pre rest m r n hRegions
      have hSame : s.examined ++ [pre.length] = List.range pre.length ++ [pre.length] := by
        rw [hExamined]
      have hNext : ∀ m', s.examined ++ [pre.length] = List.range (pre ++ [m']).length := by
        intro m'
        rw [hExamined, List.length_append, List.length_singleton, List.range_succ]
      have hPlus : ∀ m', (pre ++ [m']).length = pre.length + 1 := by
        intro m'
        rw [List.length_append, List.length_singleton]
      rw [Settled]
      -- two regions that do not overlap are left as they are
      by_cases hOverlap : Overlapping m r
      · rw [if_pos hOverlap] at hRound ⊢
        rcases hOpen : r.fileName.bind elfOpen with - | pheaders
        · rw [hOpen] at hRound
          rw [loopFrom_error hRound] at h
          cases h
        · rw [hOpen] at hRound
          rcases hFind : findHeader m 0 pheaders with ⟨i', - | p⟩
          · simp only [hFind] at hRound
            rw [loopFrom_continue hRound] at h
            have hIndex := next_of_run h (congrArg List.length hRegions) hSame hAll
            refine ⟨pheaders, rfl, by rw [hFind]; exact hIndex, ?_⟩
            rw [hFind]
            rcases hIndex with rfl | ⟨rfl, -⟩
            · rw [← hPlus m] at h ⊢
              refine ih h ?_ (hNext m)
              rw [List.append_assoc, List.singleton_append]
              exact hRegions
            · trivial
          · simp only [hFind] at hRound
            rw [loopFrom_continue hRound] at h
            have hIndex :=
              next_of_run (r := (adjust p m r).2) (m := (adjust p m r).1) h rfl hSame hAll
            have hFits : Fits p m r := by
              obtain ⟨-, ⟨changes, hChanges⟩, -⟩ := loopFrom_examined h
              refine tidy_iff.1 (hTidy _ ?_)
              rw [← hChanges]
              simp
            refine ⟨pheaders, rfl, by rw [hFind]; exact hIndex, ?_⟩
            rw [hFind]
            refine ⟨hFits, ?_⟩
            rcases hIndex with rfl | ⟨rfl, -⟩
            · rw [← hPlus (adjust p m r).1] at h ⊢
              refine ih h ?_ (hNext _)
              rw [List.append_assoc, List.singleton_append]
            · trivial
      · rw [if_neg hOverlap] at hRound ⊢
        rw [loopFrom_continue hRound, ← hPlus m] at h
        rw [← hPlus m]
        refine ih h ?_ (hNext m)
        rw [List.append_assoc, List.singleton_append]
        exact hRegions

end

/-- The map is normalised when its regions are settled, and only then. -/
theorem normalises_iff (elfOpen : Text → Option (List PHeader))
    (found : Option (List MemoryRegion)) :
    Normalises elfOpen found ↔ AllSettled elfOpen found := by
  rcases found with - | regions
  · exact iff_of_true ⟨0, -1, .start [], rfl, rfl, fun c hc => absurd hc List.not_mem_nil⟩ trivial
  constructor
  · rintro ⟨n, result, t, hRun, hAll, hTidy⟩
    rcases regions with - | ⟨m, rest⟩
    · trivial
    · rw [elfGetMap, Option.map_eq_some_iff] at hRun
      obtain ⟨⟨e | u, s⟩, hLoop, hSame⟩ := hRun
      · cases hSame
      · obtain ⟨-, rfl⟩ := Prod.mk.inj hSame
        have hSettled : Settled elfOpen ([] : List MemoryRegion).length m rest :=
          settled_of_run hLoop rfl rfl hAll hTidy
        exact hSettled
  · intro hSettled
    rcases regions with - | ⟨m, rest⟩
    · exact ⟨1, 0, .start [], rfl, rfl, fun c hc => absurd hc List.not_mem_nil⟩
    · obtain ⟨n, t, hRun, hEnd⟩ := normalise_runs hSettled
      refine ⟨n, 0, t, ?_, hEnd⟩
      rw [elfGetMap, hRun]
      rfl

/-- Three regions; the last two overlap. -/
def sharedFile : List MemoryRegion :=
  [⟨0x1000, 0x1000, 0, 0x1000, some (ascii "a")⟩, ⟨0x10000, 0x2000, 0, 0x2000, some (ascii "b")⟩,
    ⟨0x20000, 0x1000, 0x1000, 0x1000, some (ascii "b")⟩]

/-- The file of the last two regions has no program headers: the scan goes on with them again and
again. -/
theorem sharedFile_not_normalised : ¬ Normalises (fun _ => some []) (some sharedFile) := by
  rintro ⟨n, result, t, hRun, -⟩
  have hNever : Never (normalise fun _ => some []) (.start sharedFile) := by
    refine Never.loop (I := fun i s => i ≤ 1 ∧ s.regions = sharedFile) ⟨Nat.zero_le 1, rfl⟩ ?_
    rintro i s ⟨hAt, hRegions⟩
    refine .inr ⟨0, 1, s.at i, ?_, le_refl 1, hRegions⟩
    obtain rfl | rfl := Nat.le_one_iff_eq_zero_or_eq_one.1 hAt
    · exact examine_run (show s.regions = [] ++ _ from hRegions)
    · exact examine_run (show s.regions = [_] ++ _ from hRegions)
  rw [elfGetMap, hNever n] at hRun
  cases hRun

end TcfAgent.ElfMap
