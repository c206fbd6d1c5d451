import TcfAgent.Framework.InflateInput

/-!
# Decompressions come to an end

A decompression goes wrong in three ways. The bits at a symbol can be a dead end, which only the one
code of a table with one code has: an assertion fails. A symbol for a distance can be one of the two
that are not used: the distance is 0. And a position can go beyond what 32 bits hold. A step is
`Orderly` without the first and the last, and `Regular` without all of them.

A decompression whose steps are all regular returns or raises, and what it copies has been written
before (`decompress_robust`).
-/

namespace TcfAgent.Inflate

open TcfAgent.Lib

/-! ## Steps that are regular -/

section

variable (src : List UInt8)

/-- The symbol to come is not a dead end. -/
def Alive (t : HuffmanTable) (s : State) : Prop :=
  ∀ s', fill src 15 15 s = .ok ((), s') → ¬ DeadEnd t.sizes s'.bitBuf

/-- The distance to come is not a symbol that is not used, unless it is refused for the length. -/
def Used (len : Nat) (s : State) : Prop :=
  ∀ s' sym, fill src 15 15 s = .ok ((), s') → Begins s.tables.distances.sizes sym s'.bitBuf →
    30 ≤ sym → s.out.length < u32 (s.outPos + len)

/-- The head of a stored block. -/
def StoredHead (pos len : Nat) : Prop :=
  ∃ b0 b1 b2 b3 : UInt8, src[pos]? = some b0 ∧ src[pos + 1]? = some b1 ∧ src[pos + 2]? = some b2 ∧
    src[pos + 3]? = some b3 ∧ len = b0.toNat + b1.toNat * 256 ∧
      len ^^^ (b2.toNat + b3.toNat * 256) = 0xffff

/-- Where a stored block begins. -/
def State.aligned (s : State) : Nat := s.inpPos - s.bitCnt / 8

/-- The ends of a stored block are positions of 32 bits. -/
def StoredFits (s : State) : Prop :=
  s.aligned + 4 < 2 ^ 32 ∧ ∀ len, StoredHead src s.aligned len →
    u32 (s.outPos + len) ≤ s.out.length →
      s.aligned + 4 + len < 2 ^ 32 ∧ (s.outPos + len < 2 ^ 32 ∨ s.outPos + len ≤ s.out.length)

/-- No position wraps, and no symbol to come is a dead end. -/
def Orderly : Status → Prop
  | .running .header s => Room src 3 s
  | .running .stored s => StoredFits src s
  | .running (.tables _) s => Room src 7111 s
  | .running .symbol s => Room src 20 s ∧ Alive src s.tables.literals s
  | .running (.distance _) s => Room src 28 s ∧ Alive src s.tables.distances s
  | .running (.copy len _) s => 2 ^ 32 ≤ s.outPos + len → 2 ^ 32 ≤ s.out.length
  | _ => True

def Regular (st : Status) : Prop :=
  Orderly src st ∧ ∀ len s, st = .running (.distance len) s → Used src len s

end

/-! ## What holds before a step -/

def Phase.inBlock : Phase → Bool
  | .symbol | .distance _ | .copy _ _ => true
  | _ => false

/-- The tables of the block. -/
structure Tabled (s : State) : Prop where
  literals  : s.tables.literals.Decodes
  distances : s.tables.distances.Decodes
  few       : s.tables.distances.sizes.length ≤ 32

/-- What has to hold in each phase, so that nothing fails. -/
structure Ready (src : List UInt8) (phase : Phase) (s : State) : Prop where
  within : Within src s
  outPos : s.outPos ≤ s.out.length
  word   : s.outPos < 2 ^ 32
  tabled : phase.inBlock → Tabled s
  copies : ∀ len ofs, phase = .copy len ofs →
    ofs ≤ s.outPos ∧ u32 (s.outPos + len) ≤ s.out.length

def Phase.isCopy : Phase → Bool
  | .copy _ _ => true
  | _ => false

/-- The steps that do not read come after one that does. -/
def Phase.rank : Phase → Nat
  | .tables _ | .copy _ _ => 1
  | _ => 0

/-- What becomes less in every step. -/
def work (src : List UInt8) (phase : Phase) (s : State) : Nat :=
  2 * (8 * src.length - s.bitPos) + phase.rank

/-- What a step leads to; a copy comes after its distance. -/
def Next (src : List UInt8) (phase : Phase) (s : State) : Option Phase → State → Prop
  | none, _ => True
  | some phase', s' => Ready src phase' s' ∧ work src phase' s' < work src phase s ∧
    ∀ len ofs, phase' = .copy len ofs → phase = .distance len ∧ (Used src len s → 1 ≤ ofs)

section

variable {src : List UInt8} {phase phase' : Phase} {s s' : State} {lo hi : Nat}

theorem Within.bitPos_le (h : Within src s) : s.bitPos ≤ 8 * src.length := by
  have := h.pos
  unfold State.bitPos
  omega

theorem Tabled.congr (h : Tabled s) (hSame : s'.tables = s.tables) : Tabled s' := by
  refine ⟨?_, ?_, ?_⟩ <;> rw [hSame]
  · exact h.literals
  · exact h.distances
  · exact h.few

theorem Phase.ne_copy (h : phase.isCopy = false) (len ofs : Nat) : phase ≠ .copy len ofs := by
  rintro rfl
  cases h

theorem next_of (h : Ready src phase' s') (hLess : work src phase' s' < work src phase s)
    (hCopy : phase'.isCopy = false) : Next src phase s (some phase') s' :=
  ⟨h, hLess, fun len ofs hSame => absurd hSame (Phase.ne_copy hCopy len ofs)⟩

/-- After a step that only reads. -/
theorem Ready.after (h : Ready src phase s) (hStep : Advances src lo hi s s')
    (hBlock : phase'.inBlock → phase.inBlock)
    (hCopy : ∀ len ofs, phase' = .copy len ofs →
      ofs ≤ s'.outPos ∧ u32 (s'.outPos + len) ≤ s'.out.length) :
    Ready src phase' s' := by
  refine ⟨hStep.within, ?_, ?_, ?_, hCopy⟩
  · rw [hStep.out, hStep.outPos]
    exact h.outPos
  · rw [hStep.outPos]
    exact h.word
  · exact fun hIn => (h.tabled (hBlock hIn)).congr hStep.tables

theorem Ready.plain (h : Ready src phase s) (hStep : Advances src lo hi s s')
    (hBlock : phase'.inBlock → phase.inBlock) (hCopy : phase'.isCopy = false) :
    Ready src phase' s' :=
  h.after hStep hBlock fun len ofs hSame => absurd hSame (Phase.ne_copy hCopy len ofs)

theorem work_lt (hStep : Advances src lo hi s s') (hLo : phase'.rank < phase.rank + 2 * lo) :
    work src phase' s' < work src phase s := by
  have hEnd := hStep.within.bitPos_le
  have hLow := hStep.low
  unfold work
  omega

/-! ## One step -/

theorem afterBlock_eq : afterBlock = (get : Inf State) >>= fun s =>
    if s.final then
      (modify fun s => { s with inpPos := u32 (s.inpPos + 2 ^ 32 - s.bitCnt / 8), bitCnt := 0 }) >>=
        fun _ => pure none
    else pure (some .header) := rfl

theorem afterBlock_safely {Q : Option Phase → State → Prop} (hEnd : ∀ t, Q none t)
    (hNext : Q (some .header) s) : Safely afterBlock Q (fun _ => True) s := by
  rw [afterBlock_eq]
  refine safely_bind.2 (safely_get.2 (safely_ite (fun _ => ?_) fun _ => hNext))
  exact safely_bind.2 (safely_modify.2 (hEnd _))

theorem headerStep_safely (h : Ready src .header s) (hRoom : Room src 3 s) :
    Safely (headerStep src) (Next src .header s) (fun _ => True) s := by
  refine (reads_getBits (by decide) s h.within (hRoom.mono (by decide))).bind ?_
  rintro final t ⟨-, hFinal⟩
  refine (reads_getBits (by decide) t hFinal.within (Room.after hRoom hFinal)).bind ?_
  rintro type u ⟨-, hType⟩
  have hStep := hFinal.trans hType
  have hNext : ∀ phase', phase'.inBlock = false → phase'.isCopy = false → phase'.rank ≤ 1 →
      Next src .header s (some phase') { u with final := final = 1 } := by
    intro phase' hBlock hCopy hRank
    have hReady : Ready src phase' u := h.plain hStep (fun hIn => by simp [hBlock] at hIn) hCopy
    have hHeader : Phase.rank .header = 0 := rfl
    have hLess : work src phase' u < work src .header s := work_lt hStep (by omega)
    exact next_of ⟨⟨hStep.within.pos, hStep.within.word, hStep.within.few⟩, hReady.outPos,
      hReady.word, fun hIn => (hReady.tabled hIn).congr rfl, hReady.copies⟩ hLess hCopy
  refine safely_bind.2 (safely_modify.2 (safely_ite (fun _ => hNext .stored rfl rfl (by decide))
    fun _ => safely_ite (fun _ => trivial) fun _ => hNext (.tables type) rfl rfl (Nat.le_refl 1)))

/-- The tables of a block are built, or refused. -/
theorem buildTables_safely {sizes : List Nat × List Nat} {lengths : HuffmanTable}
    {Q : Unit → State → Prop} (hFit : SizesFit sizes)
    (hQ : ∀ tables : Tables, Tabled { s with tables } → Q () { s with tables }) :
    Safely (buildTables sizes lengths) Q (fun _ => True) s := by
  obtain ⟨hLiterals, hDistances, hMany, hFew⟩ := hFit
  have hMax : sizes.2.length ≤ maxSymbolsCnt := hFew.trans (by decide)
  unfold buildTables
  rw [ensure_true ⟨hMany, hMax⟩, pure_bind]
  rcases buildTable_cases hDistances hMax with ⟨t, hRun, hSizes, hTable⟩ | ⟨r, hRun⟩
  · rcases buildTable_cases hLiterals hMany with ⟨t', hRun', -, hTable'⟩ | ⟨r', hRun'⟩
    · rw [hRun, hRun', liftBuild_ok, pure_bind, liftBuild_ok, pure_bind]
      exact safely_modify.2 (hQ _ ⟨hTable', hTable, by rw [hSizes]; exact hFew⟩)
    · rw [hRun, hRun', liftBuild_ok, pure_bind]
      trivial
  · rw [hRun]
    trivial

theorem fixedSizes_fit : SizesFit fixedSizes := by
  refine ⟨?_, ?_, ?_, ?_⟩
  · intro size hSize
    simp only [fixedSizes, fixedLiterals, List.mem_append, List.mem_replicate] at hSize
    omega
  · intro size hSize
    rw [List.eq_of_mem_replicate hSize]
    decide
  · simp only [fixedSizes, fixedLiterals, List.length_append, List.length_replicate]
    decide
  · rw [fixedSizes, List.length_replicate]

theorem tablesStep_safely {type : Nat} (h : Ready src (.tables type) s) (hRoom : Room src 7111 s) :
    Safely (decompressStep src (.tables type)) (Next src (.tables type) s) (fun _ => True) s := by
  have hNext : ∀ (t : State) (tables : Tables), Advances src 0 7111 s t → Tabled { t with tables } →
      Next src (.tables type) s (some .symbol) { t with tables } := by
    intro t tables hStep hTabled
    have hReady : Ready src .header t := h.plain hStep (fun hIn => by cases hIn) rfl
    have hLess : work src .symbol t < work src (.tables type) s :=
      work_lt hStep (by simp [Phase.rank])
    exact next_of ⟨⟨hStep.within.pos, hStep.within.word, hStep.within.few⟩, hReady.outPos,
      hReady.word, fun _ => hTabled, fun len ofs hSame => by cases hSame⟩ hLess rfl
  refine safely_bind.2 ?_
  unfold decodeTables
  refine safely_ite (fun _ => ?_) fun _ => ?_
  · have hNone := (Advances.refl h.within).mono (Nat.le_refl 0) (Nat.zero_le 7111)
    have hFit := fixedSizes_fit
    generalize fixedSizes = sizes at hFit ⊢
    exact buildTables_safely hFit fun tables hTabled => hNext s tables hNone hTabled
  · refine (reads_dynamicSizes s h.within hRoom).bind ?_
    rintro ⟨literals, distances, lengths⟩ t ⟨hFit, hStep⟩
    exact buildTables_safely hFit fun tables hTabled => hNext t tables hStep hTabled

/-! ## Stored blocks -/

theorem u32_of_lt {n : Nat} (h : n < 2 ^ 32) : u32 n = n := Nat.mod_eq_of_lt h

theorem u32_lt (n : Nat) : u32 n < 2 ^ 32 := Nat.mod_lt _ (by decide)

theorem u32_le (n : Nat) : u32 n ≤ n := Nat.mod_le _ _

theorem Within.aligned_eq (h : Within src s) :
    u32 (s.inpPos + 2 ^ 32 - s.bitCnt / 8) = s.aligned := by
  have hFew := h.few
  have hWord := h.word
  have hSum : s.inpPos + 2 ^ 32 - s.bitCnt / 8 = s.aligned + 2 ^ 32 := by
    unfold State.aligned
    omega
  have hLt : s.aligned < 2 ^ 32 := by
    unfold State.aligned
    omega
  rw [hSum, u32, Nat.add_mod_right, Nat.mod_eq_of_lt hLt]

/-- The state after a stored block of `len` bytes. -/
def State.store (s : State) (src : List UInt8) (len : Nat) : State :=
  { s with
    inpPos := u32 (s.aligned + 4 + len)
    bitCnt := 0
    out := s.out.take s.outPos ++
      ((src.drop (s.aligned + 4)).take len ++ s.out.drop (s.outPos + len))
    outPos := u32 (s.outPos + len) }

/-- A stored block is copied as it is. -/
theorem storedBlock_safely (h : Within src s) (hFits : StoredFits src s) :
    Safely (storedBlock src)
      (fun _ s' => ∃ len, s' = s.store src len ∧ s.aligned + 4 + len ≤ src.length ∧
        s.aligned + 4 + len < 2 ^ 32 ∧ s.outPos + len ≤ s.out.length ∧
        u32 (s.outPos + len) ≤ s.out.length)
      (fun _ => True) s := by
  have hFour := hFits.1
  refine safely_bind.2 (safely_modify.2 (safely_bind.2 (safely_get.2 ?_)))
  rw [h.aligned_eq, u32_of_lt hFour]
  refine safely_ite (fun _ => trivial) fun hEnd => ?_
  have hByte : ∀ k, k < 4 → ∃ b, src[s.aligned + k]? = some b := fun k hk =>
    ⟨_, List.getElem?_eq_getElem (by omega)⟩
  have hSmall : ∀ k, k < 4 → u32 (s.aligned + k) = s.aligned + k := fun k hk =>
    u32_of_lt (by omega)
  obtain ⟨b0, h0⟩ := hByte 0 (by decide)
  obtain ⟨b1, h1⟩ := hByte 1 (by decide)
  obtain ⟨b2, h2⟩ := hByte 2 (by decide)
  obtain ⟨b3, h3⟩ := hByte 3 (by decide)
  rw [Nat.add_zero] at h0
  simp only [hSmall 1 (by decide), hSmall 2 (by decide), hSmall 3 (by decide), h0, h1, h2, h3,
    orFault, pure_bind]
  refine safely_ite (fun _ => trivial) fun hHead => ?_
  refine safely_ite (fun _ => trivial) fun hInp => ?_
  refine safely_ite (fun _ => trivial) fun hOut => ?_
  have hLen : StoredHead src s.aligned (b0.toNat + b1.toNat * 256) :=
    ⟨b0, b1, b2, b3, h0, h1, h2, h3, rfl, Decidable.not_not.1 hHead⟩
  obtain ⟨hPos, hOutPos⟩ := hFits.2 _ hLen (Nat.not_lt.1 hOut)
  rw [u32_of_lt hPos] at hInp
  have hOutLe : s.outPos + (b0.toNat + b1.toNat * 256) ≤ s.out.length := by
    rcases hOutPos with hLt | hLe
    · rw [u32_of_lt hLt] at hOut
      omega
    · exact hLe
  refine safely_bind.2 (safely_ensure.2 ⟨⟨Nat.not_lt.1 hInp, hOutLe⟩, safely_modify.2 ?_⟩)
  exact ⟨_, rfl, Nat.not_lt.1 hInp, hPos, hOutLe, Nat.not_lt.1 hOut⟩

theorem length_store {len : Nat} (hInp : s.aligned + 4 + len ≤ src.length)
    (hOut : s.outPos + len ≤ s.out.length) : (s.store src len).out.length = s.out.length := by
  simp only [State.store, List.length_append, List.length_take, List.length_drop]
  omega

theorem storedStep_safely (h : Ready src .stored s) (hFits : StoredFits src s) :
    Safely (decompressStep src .stored) (Next src .stored s) (fun _ => True) s := by
  refine (storedBlock_safely h.within hFits).bind ?_
  rintro - t ⟨len, rfl, hInp, hPos, hOut, hOutPos⟩
  have hFew := h.within.few
  have hWithin : Within src (s.store src len) := by
    refine ⟨?_, u32_lt _, Nat.zero_le _⟩
    exact (u32_le _).trans hInp
  refine afterBlock_safely (fun _ => trivial) (next_of ⟨hWithin, ?_, u32_lt _, ?_, ?_⟩ ?_ rfl)
  · rw [length_store hInp hOut]
    exact hOutPos
  · rintro hIn
    cases hIn
  · rintro len ofs hSame
    cases hSame
  · have hEnd := hWithin.bitPos_le
    have hAfter : (s.store src len).bitPos = 8 * (s.aligned + 4 + len) := by
      simp only [State.store, State.bitPos, u32_of_lt hPos, Nat.sub_zero]
    have hBefore : s.bitPos = 8 * s.inpPos - s.bitCnt := rfl
    have hAligned : s.aligned = s.inpPos - s.bitCnt / 8 := rfl
    simp only [work, Phase.rank, hAfter] at hEnd ⊢
    omega

/-! ## Symbols -/

/-- The state after a byte has been written. -/
def State.put (s : State) (b : UInt8) : State :=
  { s with out := s.out.set s.outPos b, outPos := u32 (s.outPos + 1) }

theorem putByte_of_lt {b : UInt8} (h : s.outPos < s.out.length) :
    putByte b s = .ok ((), s.put b) := by
  have hRun : putByte b s = (ensure (s.outPos < s.out.length) >>= fun _ =>
      (modify fun s => s.put b : Inf Unit)) s := rfl
  rw [hRun, ensure_true h]
  rfl

theorem symbolStep_safely (h : Ready src .symbol s) (hRoom : Room src 20 s)
    (hAlive : Alive src s.tables.literals s) :
    Safely (symbolStep src) (Next src .symbol s) (fun _ => True) s := by
  have hTabled := h.tabled rfl
  refine safely_bind.2 (safely_get.2 ?_)
  refine (decode_safely hTabled.literals h.within (hRoom.mono (by decide)) hAlive).bind ?_
  rintro sym t ⟨⟨u, -, hBegins⟩, hStep⟩
  have hSym : sym < 288 := (lt_of_size hBegins.1).trans_le hTabled.literals.few
  refine safely_ite (fun _ => ?_) fun hNotLiteral => safely_ite (fun _ => ?_) fun hNotEnd => ?_
  · -- a literal
    refine safely_bind.2 (safely_get.2 (safely_ite (fun _ => trivial) fun hFull => ?_))
    have hPut : Safely (putByte (UInt8.ofNat sym)) (fun _ => Next src .symbol s (some .symbol))
        (fun _ => True) t := by
      rw [safely_of_ok (putByte_of_lt (Nat.not_le.1 hFull))]
      have hLess : work src .symbol t < work src .symbol s := work_lt hStep (by decide)
      refine next_of ⟨⟨hStep.within.pos, hStep.within.word, hStep.within.few⟩, ?_, u32_lt _,
        fun _ => hTabled.congr hStep.tables, ?_⟩ hLess rfl
      · have := u32_le (t.outPos + 1)
        simp only [State.put, List.length_set]
        omega
      · rintro len ofs hSame
        cases hSame
    exact hPut.bind fun _ t h => h
  · -- the end of the block
    exact afterBlock_safely (fun _ => trivial)
      (next_of (h.plain hStep (fun hIn => by cases hIn) rfl) (work_lt hStep (by decide)) rfl)
  · -- the length of a back-reference
    have hIndex : sym - 257 < 31 := by omega
    generalize sym - 257 = k at hIndex ⊢
    have hExtra : ∀ extra ∈ lengthExtra, extra ≤ 5 := by decide
    have hBase := List.getElem?_eq_getElem (l := lengthBase) hIndex
    have hMore := List.getElem?_eq_getElem (l := lengthExtra) hIndex
    refine safely_bind.2 (safely_orFault.2 ⟨_, hBase, safely_bind.2 (safely_orFault.2
      ⟨_, hMore, ?_⟩)⟩)
    have hBits := hExtra _ (List.getElem_mem (l := lengthExtra) hIndex)
    have hLeft : Room src 5 t := Room.after hRoom hStep
    refine (reads_getBits (by omega) t hStep.within (hLeft.mono hBits)).bind ?_
    rintro bits v ⟨-, hLength⟩
    have hBoth := hStep.trans hLength
    exact next_of (h.plain hBoth (fun _ => rfl) rfl)
      (work_lt hBoth (by simp only [Phase.rank]; omega)) rfl

theorem distanceStep_safely {len : Nat} (h : Ready src (.distance len) s) (hRoom : Room src 28 s)
    (hAlive : Alive src s.tables.distances s) :
    Safely (distanceStep src len) (Next src (.distance len) s) (fun _ => True) s := by
  have hTabled := h.tabled rfl
  refine safely_bind.2 (safely_get.2 ?_)
  refine (decode_safely hTabled.distances h.within (hRoom.mono (by decide)) hAlive).bind ?_
  rintro sym t ⟨⟨u, hFill, hBegins⟩, hStep⟩
  have hIndex : sym < 32 := (lt_of_size hBegins.1).trans_le hTabled.few
  have hExtra : ∀ extra ∈ distExtra, extra ≤ 13 := by decide
  have hBase := List.getElem?_eq_getElem (l := distBase) hIndex
  have hMore := List.getElem?_eq_getElem (l := distExtra) hIndex
  refine safely_bind.2
    (safely_orFault.2 ⟨_, hBase, safely_bind.2 (safely_orFault.2 ⟨_, hMore, ?_⟩)⟩)
  have hBits := hExtra _ (List.getElem_mem (l := distExtra) hIndex)
  have hLeft : Room src 13 t := Room.after hRoom hStep
  refine (reads_getBits (by omega) t hStep.within (hLeft.mono hBits)).bind ?_
  rintro bits v ⟨-, hOffset⟩
  have hBoth := hStep.trans hOffset
  refine safely_bind.2 (safely_get.2 (safely_ite (fun _ => trivial) fun hWritten =>
    safely_ite (fun _ => trivial) fun hFull => ?_))
  refine ⟨h.after hBoth (fun _ => rfl) ?_, work_lt hBoth (by simp only [Phase.rank]; omega), ?_⟩
  · rintro len' ofs hSame
    cases hSame
    exact ⟨Nat.not_lt.1 hWritten, Nat.not_lt.1 hFull⟩
  · rintro len' ofs hSame
    cases hSame
    refine ⟨rfl, fun hUsed => ?_⟩
    rcases Nat.lt_or_ge sym 30 with hSym | hSym
    · have hPositive : ∀ i : Fin 30, 1 ≤ distBase[i.val]! := by decide
      have hOne := hPositive ⟨sym, hSym⟩
      rw [getElem!_pos distBase sym hIndex] at hOne
      omega
    · have hRefused := hUsed u sym hFill hBegins hSym
      rw [← hBoth.out, ← hBoth.outPos] at hRefused
      exact absurd hRefused hFull

/-! ## Copies -/

/-- The loop that copies stays in the output. -/
theorem copyBytes_safely {ofs : Nat} (len : Nat) (hWord : s.outPos < 2 ^ 32) (hOfs : ofs < 2 ^ 32)
    (hFit : 2 ^ 32 ≤ s.out.length ∨
      ofs ≤ s.outPos ∧ s.outPos + len < 2 ^ 32 ∧ s.outPos + len ≤ s.out.length)
    (hOut : s.outPos ≤ s.out.length) :
    Safely (copyBytes ofs len)
      (fun _ s' => s' = { s with out := s'.out, outPos := s'.outPos } ∧
        s'.outPos ≤ s'.out.length ∧ s'.outPos < 2 ^ 32)
      (fun _ => True) s := by
  induction len generalizing s with
  | zero => exact ⟨rfl, hOut, hWord⟩
  | succ len ih =>
    have hSource : u32 (s.outPos + 2 ^ 32 - ofs) < s.out.length := by
      rcases hFit with hBig | ⟨hLe, hSum, hEnd⟩
      · exact (u32_lt _).trans_le hBig
      · have hBack : s.outPos + 2 ^ 32 - ofs = s.outPos - ofs + 2 ^ 32 := by omega
        rw [hBack, u32, Nat.add_mod_right, Nat.mod_eq_of_lt (by omega)]
        omega
    have hTarget : s.outPos < s.out.length := by omega
    have hLength : ∀ b, (s.put b).out.length = s.out.length := fun b => by simp [State.put]
    have hNext : u32 (s.outPos + 1) ≤ s.out.length := by
      have := u32_le (s.outPos + 1)
      omega
    refine safely_bind.2 (safely_get.2 (safely_bind.2 (safely_orFault.2
      ⟨_, List.getElem?_eq_getElem hSource, ?_⟩)))
    refine (safely_bind_of_ok (putByte_of_lt hTarget)).2 ?_
    refine (ih (u32_lt _) ?_ (by rw [hLength]; exact hNext)).mono ?_
    · rcases hFit with hBig | ⟨hLe, hSum, hEnd⟩
      · exact Or.inl (by rwa [hLength])
      · have hPos : (s.put s.out[u32 (s.outPos + 2 ^ 32 - ofs)]).outPos = s.outPos + 1 :=
          u32_of_lt (by omega)
        rw [hLength, hPos]
        exact Or.inr ⟨by omega, by omega, by omega⟩
    · rintro - t ⟨hSame, hEnd⟩
      exact ⟨hSame, hEnd⟩

theorem copyStep_safely {len ofs : Nat} (h : Ready src (.copy len ofs) s)
    (hFit : 2 ^ 32 ≤ s.outPos + len → 2 ^ 32 ≤ s.out.length) :
    Safely (decompressStep src (.copy len ofs)) (Next src (.copy len ofs) s) (fun _ => True) s := by
  obtain ⟨hOfs, hEnd⟩ := h.copies len ofs rfl
  have hWord := h.word
  have hRoom : 2 ^ 32 ≤ s.out.length ∨
      ofs ≤ s.outPos ∧ s.outPos + len < 2 ^ 32 ∧ s.outPos + len ≤ s.out.length := by
    rcases Nat.lt_or_ge (s.outPos + len) (2 ^ 32) with hLt | hGe
    · rw [u32_of_lt hLt] at hEnd
      exact Or.inr ⟨hOfs, hLt, hEnd⟩
    · exact Or.inl (hFit hGe)
  refine (copyBytes_safely len hWord (by omega) hRoom h.outPos).bind ?_
  rintro - t ⟨hSame, hOut, hOutPos⟩
  rw [hSame]
  refine next_of ⟨⟨h.within.pos, h.within.word, h.within.few⟩, hOut, hOutPos,
    fun _ => (h.tabled rfl).congr rfl, ?_⟩ ?_ rfl
  · rintro len ofs hPhase
    cases hPhase
  · exact Nat.lt_succ_self _

/-! ## Runs -/

/-- A step does nothing that it must not. -/
theorem decompressStep_safely (h : Ready src phase s) (hOrderly : Orderly src (.running phase s)) :
    Safely (decompressStep src phase) (Next src phase s) (fun _ => True) s := by
  cases phase with
  | header => exact headerStep_safely h hOrderly
  | stored => exact storedStep_safely h hOrderly
  | tables type => exact tablesStep_safely h hOrderly
  | symbol => exact symbolStep_safely h hOrderly.1 hOrderly.2
  | distance len => exact distanceStep_safely h hOrderly.1 hOrderly.2
  | copy len ofs => exact copyStep_safely h hOrderly

end

/-- `decompress` has returned or raised. -/
def Ended : Status → Prop
  | .running _ _ => False
  | _ => True

/-- What is copied has been written. -/
def CopiesWritten : Status → Prop
  | .running (.copy _ ofs) s => 1 ≤ ofs ∧ ofs ≤ s.outPos
  | _ => True

/-- What holds between the steps of a decompression. -/
def Steady (src : List UInt8) : Status → Prop
  | .running phase s => Ready src phase s
  | _ => True

def remaining (src : List UInt8) : Status → Nat
  | .running phase s => work src phase s
  | _ => 0

section

variable {src : List UInt8} {st : Status}

theorem step_running (src : List UInt8) (phase : Phase) (s : State) :
    step src (.running phase s) () =
      match decompressStep src phase s with
      | .ok (some phase, s) => some (.running phase s)
      | .ok (none, s) => some (.finished s)
      | .error (.raise r) => some (.raised r)
      | .error .fault => none := rfl

theorem step_ended (h : Ended st) : step src st () = some st := by
  cases st with
  | running => exact h.elim
  | finished => rfl
  | raised => rfl

theorem step_orderly (h : Steady src st) (hOrderly : Orderly src st) :
    ∃ st', step src st () = some st' ∧ Steady src st' ∧
      (¬ Ended st → ¬ Ended st' → remaining src st' < remaining src st) ∧
      (CopiesWritten st → Regular src st → CopiesWritten st') := by
  cases st with
  | running phase s =>
    have hSafe := decompressStep_safely h hOrderly
    unfold Safely at hSafe
    rcases hRun : decompressStep src phase s with (r | -) | ⟨next | phase', t⟩
    · have hStep : step src (.running phase s) () = some (.raised r) := by rw [step_running, hRun]
      exact ⟨_, hStep, trivial, fun _ hNot => (hNot trivial).elim, fun _ _ => trivial⟩
    · rw [hRun] at hSafe
      exact hSafe.elim
    · have hStep : step src (.running phase s) () = some (.finished t) := by
        rw [step_running, hRun]
      exact ⟨_, hStep, trivial, fun _ hNot => (hNot trivial).elim, fun _ _ => trivial⟩
    · rw [hRun] at hSafe
      obtain ⟨hReady, hLess, hCopy⟩ := hSafe
      have hStep : step src (.running phase s) () = some (.running phase' t) := by
        rw [step_running, hRun]
      refine ⟨_, hStep, hReady, fun _ _ => hLess, fun _ hRegular => ?_⟩
      cases phase' with
      | copy len ofs =>
        obtain ⟨rfl, hOne⟩ := hCopy len ofs rfl
        exact ⟨hOne (hRegular.2 len s rfl), (hReady.copies len ofs rfl).1⟩
      | _ => trivial
  | finished s => exact ⟨_, rfl, trivial, fun hNot => (hNot trivial).elim, fun h _ => h⟩
  | raised r => exact ⟨_, rfl, trivial, fun hNot => (hNot trivial).elim, fun h _ => h⟩

theorem steady_start (src dst : List UInt8) : Steady src (start dst) := by
  have hZero : 0 < 2 ^ 32 := Nat.two_pow_pos 32
  refine ⟨⟨Nat.zero_le _, hZero, Nat.zero_le _⟩, Nat.zero_le _, hZero, ?_, ?_⟩
  · intro hIn
    cases hIn
  · intro len ofs hSame
    cases hSame

theorem meets_ended {C : Status → Unit → Prop} (h : Ended st) (hC : C st ()) (n : Nat) :
    Meets (step src) C st (List.replicate n ()) := by
  induction n with
  | zero => trivial
  | succ n ih =>
    refine ⟨hC, fun st' hStep => ?_⟩
    rw [step_ended h] at hStep
    cases hStep
    exact ih

end

/-- A decompression whose steps are orderly returns or raises. -/
theorem run_ends (src dst : List UInt8)
    (h : ∀ n, Meets (step src) (fun st _ => Orderly src st) (start dst) (List.replicate n ())) :
    ∃ n st, run (step src) (start dst) (List.replicate n ()) = some st ∧ Ended st := by
  have hStep : ∀ st, Steady src st → Orderly src st → ¬ Ended st →
      ∃ st', step src st () = some st' ∧ Steady src st' ∧
        (¬ Ended st' → remaining src st' < remaining src st) := by
    intro st hSteady hOrderly hNot
    obtain ⟨st', hStep, hSteady', hLess, -⟩ := step_orderly hSteady hOrderly
    exact ⟨st', hStep, hSteady', hLess hNot⟩
  obtain ⟨n, st, hRun, -, hEnd⟩ :=
    run_reaches (C := fun st _ => Orderly src st) hStep (steady_start src dst) h
  exact ⟨n, st, hRun, hEnd⟩

/-- A decompression whose steps are regular returns or raises; it never does what it must not, and
never copies what has not been written. -/
theorem decompress_robust (src dst : List UInt8)
    (h : ∀ n, Meets (step src) (fun st _ => Regular src st) (start dst) (List.replicate n ())) :
    (∃ n st, run (step src) (start dst) (List.replicate n ()) = some st ∧ Ended st) ∧
      ∀ n, ∃ st, run (step src) (start dst) (List.replicate n ()) = some st ∧
        CopiesWritten st := by
  refine ⟨run_ends src dst fun n => (h n).mono fun st _ hRegular => hRegular.1, fun n => ?_⟩
  have hStep : ∀ st (u : Unit), Steady src st ∧ CopiesWritten st → Regular src st →
      ∃ st', step src st u = some st' ∧ Steady src st' ∧ CopiesWritten st' := by
    rintro st ⟨⟩ ⟨hSteady, hWritten⟩ hRegular
    obtain ⟨st', hStep, hSteady', -, hWritten'⟩ := step_orderly hSteady hRegular.1
    exact ⟨st', hStep, hSteady', hWritten' hWritten hRegular⟩
  obtain ⟨st, hRun, -, hWritten⟩ := run_total hStep ⟨steady_start src dst, trivial⟩ (h n)
  exact ⟨st, hRun, hWritten⟩

/-- What a decompression has written at its end. -/
def finishedOutput : Option Status → Option (List UInt8)
  | some (.finished s) => some (s.out.take s.outPos)
  | _ => none

/-- The place of the copy that comes next. -/
def copyOffset : Option Status → Option Nat
  | some (.running (.copy _ ofs) _) => some ofs
  | _ => none

/-- An empty stored block. -/
theorem decompress_robust_stored :
    (∃ n st, run (step [1, 0, 0, 255, 255]) (start []) (List.replicate n ()) = some st ∧
        Ended st) ∧
      ∀ n, ∃ st, run (step [1, 0, 0, 255, 255]) (start []) (List.replicate n ()) = some st ∧
        CopiesWritten st := by
  refine decompress_robust _ _ fun n => ?_
  rcases n with - | - | n
  · trivial
  · refine ⟨⟨Or.inl (by decide), ?_⟩, fun st hStep => trivial⟩
    rintro len s hSame
    cases hSame
  · refine ⟨⟨Or.inl (by decide), ?_⟩, ?_⟩
    · rintro len s hSame
      cases hSame
    rintro st hStep
    cases hStep
    refine ⟨⟨⟨by decide, ?_⟩, ?_⟩, ?_⟩
    · rintro len ⟨b0, b1, b2, b3, h0, h1, h2, h3, rfl, -⟩ -
      cases h0
      cases h1
      exact ⟨by decide, Or.inl (by decide)⟩
    · rintro len s hSame
      cases hSame
    · rintro st hStep
      have hEnded : (finishedOutput (step [1, 0, 0, 255, 255] (.running .stored
          ⟨1, 0, 5, [], 0, ⟨.zero, .zero, .zero⟩, true⟩) ())).isSome = true := by decide +kernel
      have hSame : step [1, 0, 0, 255, 255] (.running .stored
          ⟨1, 0, 5, [], 0, ⟨.zero, .zero, .zero⟩, true⟩) () = some st := hStep
      rw [hSame] at hEnded
      cases st with
      | finished t =>
        have hEnd : Ended (.finished t) := trivial
        refine meets_ended hEnd ⟨trivial, ?_⟩ n
        rintro len s hSame
        cases hSame
      | _ => cases hEnded

/-- Two codes of a bit for the end and for copies of three bytes, and one for the distance 30. -/
def unusedDistance : List UInt8 := [13, 222, 129, 0, 0, 0, 0, 0, 144, 255, 107, 78, 4, 0, 0]

set_option maxRecDepth 100000 in
/-- Three bytes that have not been written are copied onto themselves. -/
theorem not_copiesWritten : ¬ ∀ (src dst : List UInt8) (n : Nat),
    ∃ st, run (step src) (start dst) (List.replicate n ()) = some st ∧ CopiesWritten st := by
  intro hAll
  obtain ⟨st, hRun, hWritten⟩ := hAll unusedDistance [0, 0, 0] 4
  have hCopy : copyOffset (run (step unusedDistance) (start [0, 0, 0])
      (List.replicate 4 ())) = some 0 := by decide +kernel
  rw [hRun] at hCopy
  unfold copyOffset at hCopy
  split at hCopy
  · rename_i len ofs s hSame
    cases hSame
    cases hCopy
    exact absurd hWritten.1 (by decide)
  · cases hCopy

end TcfAgent.Inflate
