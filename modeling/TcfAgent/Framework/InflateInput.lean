import TcfAgent.Framework.InflateTables

/-!
# The input of the decompressor

Positions in the input are counted in bits, less those that are in `inp_bit_buf`. `Reads lo hi p Q`
says that `p` takes at least `lo` and at most `hi` bits, touches nothing but the input and does
nothing that it must not, as long as the position of 32 bits does not wrap (`Room`).

Main results

* `decode_safely`       — one symbol, where the bits are not a dead end
* `reads_dynamicSizes`  — the head of a block with dynamic codes
-/

namespace TcfAgent.Inflate

open TcfAgent.Lib

def State.bitPos (s : State) : Nat := 8 * s.inpPos - s.bitCnt

section

variable (src : List UInt8)

/-- The positions of the input are in it. -/
structure Within (s : State) : Prop where
  pos  : s.inpPos ≤ src.length
  word : s.inpPos < 2 ^ 32
  few  : s.bitCnt ≤ 8 * s.inpPos

/-- `n` bits, and what is read ahead of them, can be read without a wrap. -/
def Room (n : Nat) (s : State) : Prop :=
  src.length < 2 ^ 32 ∨ s.bitPos + n + 23 ≤ 8 * 2 ^ 32

/-- Between `lo` and `hi` bits have been taken, and nothing else happened. -/
structure Advances (lo hi : Nat) (s s' : State) : Prop where
  within : Within src s'
  low    : s.bitPos + lo ≤ s'.bitPos
  high   : s'.bitPos ≤ s.bitPos + hi
  out    : s'.out = s.out
  outPos : s'.outPos = s.outPos
  tables : s'.tables = s.tables
  final  : s'.final = s.final

/-- The program reads at least `lo` and at most `hi` bits, and gives a result with `Q`. -/
def Reads {α : Type} (lo hi : Nat) (p : Inf α) (Q : α → Prop) : Prop :=
  ∀ s, Within src s → Room src hi s →
    Safely p (fun a s' => Q a ∧ Advances src lo hi s s') (fun _ => True) s

end

section

variable {src : List UInt8} {α β : Type} {lo hi lo' hi' n : Nat} {s s' t : State} {p p' : Inf α}
  {q : α → Inf β} {Q : α → Prop} {R : β → Prop}

theorem Room.mono (h : Room src hi s) (hLe : hi' ≤ hi) : Room src hi' s := by
  unfold Room at *
  omega

theorem Advances.refl (h : Within src s) : Advances src 0 0 s s :=
  ⟨h, Nat.le_refl _, Nat.le_refl _, rfl, rfl, rfl, rfl⟩

theorem Advances.trans (h : Advances src lo hi s s') (h' : Advances src lo' hi' s' t) :
    Advances src (lo + lo') (hi + hi') s t := by
  have hLow := h.low
  have hLow' := h'.low
  have hHigh := h.high
  have hHigh' := h'.high
  exact ⟨h'.within, by omega, by omega, h'.out.trans h.out, h'.outPos.trans h.outPos,
    h'.tables.trans h.tables, h'.final.trans h.final⟩

theorem Advances.mono (h : Advances src lo hi s s') (hLow : lo' ≤ lo) (hHigh : hi ≤ hi') :
    Advances src lo' hi' s s' := by
  have hBefore := h.low
  have hAfter := h.high
  exact ⟨h.within, by omega, by omega, h.out, h.outPos, h.tables, h.final⟩

theorem Room.after (h : Room src (hi + hi') s) (hStep : Advances src lo hi s s') :
    Room src hi' s' := by
  have hHigh := hStep.high
  unfold Room at *
  omega

theorem reads_pure {a : α} (h : Q a) : Reads src 0 0 (pure a : Inf α) Q :=
  fun _ hWithin _ => ⟨h, .refl hWithin⟩

theorem reads_raise {r : Reason} : Reads src lo hi (raise r : Inf α) Q := fun _ _ _ => trivial

theorem Reads.bind (hp : Reads src lo hi p Q) (hq : ∀ a, Q a → Reads src lo' hi' (q a) R) :
    Reads src (lo + lo') (hi + hi') (p >>= q) R := by
  intro s hWithin hRoom
  refine (hp s hWithin (hRoom.mono (Nat.le_add_right _ _))).bind ?_
  rintro a t ⟨ha, hFirst⟩
  refine (hq a ha t hFirst.within (hRoom.after hFirst)).mono ?_
  rintro b u ⟨hb, hSecond⟩
  exact ⟨hb, hFirst.trans hSecond⟩

theorem Reads.mono {Q' : α → Prop} (h : Reads src lo hi p Q) (hLow : lo' ≤ lo) (hHigh : hi ≤ hi')
    (hQ : ∀ a, Q a → Q' a) : Reads src lo' hi' p Q' := by
  intro s hWithin hRoom
  refine (h s hWithin (hRoom.mono hHigh)).mono ?_
  rintro a t ⟨ha, hStep⟩
  exact ⟨hQ a ha, hStep.mono hLow hHigh⟩

theorem reads_ite {c : Prop} [Decidable c] (hThen : c → Reads src lo hi p Q)
    (hElse : ¬ c → Reads src lo hi p' Q) : Reads src lo hi (if c then p else p') Q := by
  intro s hWithin hRoom
  exact safely_ite (fun hc => hThen hc s hWithin hRoom) fun hc => hElse hc s hWithin hRoom

/-! ## Bytes and bits -/

/-- The state after a byte has been fetched. -/
def State.fetch (s : State) (b : UInt8) : State :=
  { s with
    inpPos := u32 (s.inpPos + 1)
    bitBuf := s.bitBuf ||| u32 (b.toNat <<< s.bitCnt)
    bitCnt := s.bitCnt + 8 }

theorem fetchByte_eq (s : State) :
    fetchByte src s =
      if src.length ≤ s.inpPos then .error (.raise .bufferOverflow)
      else match src[s.inpPos]? with
        | none => .error .fault
        | some b => if s.bitCnt < 32 then .ok ((), s.fetch b) else .error .fault := by
  have hRun : fetchByte src s =
      ((if src.length ≤ s.inpPos then raise .bufferOverflow else pure ()) >>= fun _ =>
        (orFault src[s.inpPos]? : Inf UInt8) >>= fun b => ensure (s.bitCnt < 32) >>= fun _ =>
          (modify fun s => s.fetch b : Inf Unit)) s := by
    show (ite _ _ _ : Inf Unit) s = _
    split <;> rfl
  rw [hRun]
  split
  · rfl
  · cases src[s.inpPos]? with
    | none => rfl
    | some b =>
      simp only [orFault, ensure]
      split <;> rfl

/-- `while (inp_bit_cnt < n)`: there are `n` bits in the end. -/
theorem fill_safely (fuel : Nat) (hn : n ≤ 15) (hFuel : n ≤ s.bitCnt + fuel)
    (hWithin : Within src s)
    (hRoom : Room src 0 s) :
    Safely (fill src n fuel) (fun _ s' => n ≤ s'.bitCnt ∧ Advances src 0 0 s s')
      (fun _ => True) s := by
  induction fuel generalizing s with
  | zero => exact ⟨by omega, .refl hWithin⟩
  | succ fuel ih =>
    have hRun : fill src n (fuel + 1) s =
        (if s.bitCnt < n then fetchByte src >>= fun _ => fill src n fuel else pure ()) s := rfl
    unfold Safely
    rw [hRun]
    by_cases hCnt : s.bitCnt < n
    · rw [if_pos hCnt]
      by_cases hEnd : src.length ≤ s.inpPos
      · have hByte : fetchByte src s = .error (.raise .bufferOverflow) := by
          rw [fetchByte_eq, if_pos hEnd]
        rw [bind_of_error hByte]
        trivial
      · have hLt : s.inpPos < src.length := by omega
        have hByte : fetchByte src s = .ok ((), s.fetch (src.get ⟨s.inpPos, hLt⟩)) := by
          rw [fetchByte_eq, if_neg hEnd, List.getElem?_eq_getElem hLt]
          exact if_pos (by omega)
        have hFew := hWithin.few
        have hWrap : s.inpPos + 1 < 2 ^ 32 := by
          unfold Room State.bitPos at hRoom
          omega
        have hPos : u32 (s.inpPos + 1) = s.inpPos + 1 := Nat.mod_eq_of_lt hWrap
        have hSame : (s.fetch (src.get ⟨s.inpPos, hLt⟩)).bitPos = s.bitPos := by
          simp only [State.bitPos, State.fetch, hPos]
          omega
        have hFetched : Within src (s.fetch (src.get ⟨s.inpPos, hLt⟩)) := by
          refine ⟨?_, ?_, ?_⟩ <;> simp only [State.fetch, hPos] <;> omega
        have hStep : Advances src 0 0 s (s.fetch (src.get ⟨s.inpPos, hLt⟩)) :=
          ⟨hFetched, hSame.symm.le, hSame.le, rfl, rfl, rfl, rfl⟩
        rw [bind_of_ok hByte]
        refine (ih ?_ hFetched (Room.after hRoom hStep)).mono ?_
        · show n ≤ s.bitCnt + 8 + fuel
          omega
        · rintro - t ⟨ht, hRest⟩
          exact ⟨ht, hStep.trans hRest⟩
    · rw [if_neg hCnt]
      exact ⟨by omega, .refl hWithin⟩

theorem dropBits_safely (hn : n ≤ s.bitCnt) (hWithin : Within src s) :
    Safely (dropBits n) (fun _ s' => Advances src n n s s') (fun _ => True) s := by
  have hFew := hWithin.few
  have hRun : dropBits n s = (ensure (n ≤ s.bitCnt) >>= fun _ =>
      (modify fun s => { s with bitBuf := s.bitBuf >>> n, bitCnt := s.bitCnt - n } : Inf Unit)) s :=
    rfl
  unfold Safely
  rw [hRun, ensure_true hn]
  show Advances src n n s { s with bitBuf := s.bitBuf >>> n, bitCnt := s.bitCnt - n }
  refine ⟨⟨hWithin.pos, hWithin.word, ?_⟩, ?_, ?_, rfl, rfl, rfl, rfl⟩
  · show s.bitCnt - n ≤ 8 * s.inpPos
    omega
  · simp only [State.bitPos]
    omega
  · simp only [State.bitPos]
    omega

/-- `get_bits` -/
theorem reads_getBits (hn : n ≤ 15) : Reads src n n (getBits src n) (· < 2 ^ n) := by
  intro s hWithin hRoom
  by_cases hZero : n = 0
  · subst hZero
    exact ⟨by decide, .refl hWithin⟩
  · have hRun : getBits src n = ensure (n < 32) >>= fun _ => fill src n n >>= fun _ =>
        (get : Inf State) >>= fun t => dropBits n >>= fun _ => pure (t.bitBuf % 2 ^ n) := by
      unfold getBits
      rw [if_neg hZero]
    rw [hRun, ensure_true (by omega : n < 32)]
    refine safely_bind.2 ((fill_safely n hn (by omega) hWithin
      (hRoom.mono (Nat.zero_le n))).bind ?_)
    rintro - t ⟨hCnt, hFill⟩
    refine safely_bind.2 ((dropBits_safely hCnt hFill.within).bind ?_)
    intro _ u hDrop
    refine ⟨Nat.mod_lt _ (Nat.two_pow_pos n), ?_⟩
    have hBoth := hFill.trans hDrop
    rwa [Nat.zero_add] at hBoth

/-! ## Symbols -/

theorem liftBuild_ok (a : α) : liftBuild (.ok a) = (pure a : Inf α) := rfl

theorem decodeHuffmanSymbol_eq (table : HuffmanTable) :
    decodeHuffmanSymbol src table = fill src 15 15 >>= fun _ =>
      (get : Inf State) >>= fun u => liftBuild (lookupSymbol table u.bitBuf) >>= fun v =>
        ensure (v.size ≤ 15) >>= fun _ =>
          (if v.size = 0 then raise .other else pure ()) >>= fun _ =>
            dropBits v.size >>= fun _ => pure v.code := by
  unfold decodeHuffmanSymbol
  refine congrArg _ (funext fun _ => congrArg _ (funext fun u => congrArg _ (funext fun v =>
    congrArg _ (funext fun _ => ?_))))
  split <;> rfl

variable {table : HuffmanTable}

/-- `decode_huffman_symbol` -/
theorem decode_safely (hTable : table.Decodes) (hWithin : Within src s)
    (hRoom : Room src 15 s)
    (hAlive : ∀ s', fill src 15 15 s = .ok ((), s') → ¬ DeadEnd table.sizes s'.bitBuf) :
    Safely (decodeHuffmanSymbol src table)
      (fun sym s' => (∃ s₁, fill src 15 15 s = .ok ((), s₁) ∧ Begins table.sizes sym s₁.bitBuf) ∧
        Advances src 1 15 s s')
      (fun _ => True) s := by
  have hFilled := (fill_safely 15 (Nat.le_refl 15) (Nat.le_add_left 15 _) hWithin
    (hRoom.mono (Nat.zero_le 15))).with_result
  rw [decodeHuffmanSymbol_eq]
  refine hFilled.bind ?_
  rintro ⟨⟩ t ⟨⟨hCnt, hFill⟩, hOk⟩
  refine safely_bind.2 (safely_get.2 ?_)
  rcases hTable.lookup_cases t.bitBuf with ⟨j, hBegins, hLookup⟩ | ⟨hNone, hEmpty | hDead⟩
  · have hSize := hTable.good.le j
    have hUsed := hBegins.1
    rw [hLookup, liftBuild_ok, pure_bind, ensure_true hSize, pure_bind, if_neg hUsed, pure_bind]
    refine (dropBits_safely (hSize.trans hCnt) hFill.within).bind ?_
    intro _ u hDrop
    have hBoth := hFill.trans hDrop
    rw [Nat.zero_add] at hBoth
    exact ⟨⟨t, hOk, hBegins⟩, hBoth.mono (Nat.one_le_iff_ne_zero.2 hUsed) hSize⟩
  · rw [hEmpty.2, liftBuild_ok, pure_bind]
    exact trivial
  · exact absurd hDead.1 (hAlive t hOk)

variable {sizes : List Nat}

/-- Short codes have no dead ends. -/
theorem not_deadEnd (h : ∀ j, sizes.getD j 0 ≤ fastLookupBits) (x : Nat) :
    ¬ DeadEnd sizes x := by
  rintro ⟨⟨j, hLong, -⟩, -⟩
  exact absurd hLong (Nat.not_lt.2 (h j))

theorem reads_decode (hTable : table.Decodes)
    (hShort : ∀ j, table.sizes.getD j 0 ≤ fastLookupBits) :
    Reads src 1 15 (decodeHuffmanSymbol src table) (· < table.sizes.length) := by
  intro s hWithin hRoom
  refine (decode_safely hTable hWithin hRoom fun t _ => not_deadEnd hShort _).mono ?_
  rintro sym t ⟨⟨u, -, hBegins⟩, hStep⟩
  exact ⟨lt_of_size hBegins.1, hStep⟩

/-! ## The head of a block -/

theorem reads_readCodeSizes (order : List Nat)
    (hOrder : ∀ sym ∈ order, sym < sizes.length) (hSizes : ∀ size ∈ sizes, size ≤ 7) :
    Reads src 0 (3 * order.length) (readCodeSizes src order sizes)
      fun r => r.length = sizes.length ∧ ∀ size ∈ r, size ≤ 7 := by
  induction order generalizing sizes with
  | nil => exact reads_pure ⟨rfl, hSizes⟩
  | cons sym order ih =>
    have hNext : ∀ size, size < 2 ^ 3 →
        Reads src 0 (3 * order.length)
          (ensure (sym < sizes.length) >>= fun _ => readCodeSizes src order (sizes.set sym size))
          fun r => r.length = sizes.length ∧ ∀ size ∈ r, size ≤ 7 := by
      intro size hSize
      rw [ensure_true (hOrder sym List.mem_cons_self)]
      have hRest := @ih (sizes.set sym size)
      rw [List.length_set] at hRest
      refine hRest (fun sym hSym => hOrder sym (List.mem_cons_of_mem _ hSym)) ?_
      intro size' hMem
      rcases List.mem_or_eq_of_mem_set hMem with hOld | rfl
      · exact hSizes size' hOld
      · omega
    refine ((reads_getBits (by decide)).bind hNext).mono (Nat.zero_le _) ?_ fun _ h => h
    rw [List.length_cons]
    omega

theorem reads_repeatCount (d : Nat) : Reads src 0 7 (repeatCount src d) (· ≤ 138) := by
  have hBits : ∀ n base, n ≤ 7 → 2 ^ n + base ≤ 139 →
      Reads src 0 7 (getBits src n >>= fun a => (pure (a + base) : Inf Nat)) (· ≤ 138) := by
    intro n base hn hBase
    have hSum : ∀ a, a < 2 ^ n → Reads src 0 0 (pure (a + base) : Inf Nat) (· ≤ 138) :=
      fun a ha => reads_pure (by omega)
    exact ((reads_getBits (by omega)).bind hSum).mono (Nat.zero_le _) hn fun _ h => h
  unfold repeatCount
  refine reads_ite (fun _ => hBits 2 3 (by decide) (by decide)) fun _ => ?_
  refine reads_ite (fun _ => hBits 3 3 (by decide) (by decide)) fun _ => ?_
  refine reads_ite (fun _ => hBits 7 11 (by decide) (by decide)) fun _ => ?_
  exact (reads_pure (Nat.zero_le 138)).mono (Nat.le_refl 0) (by decide) fun _ h => h

theorem reads_addLengths (d : Nat) {lens : List Nat} (hLens : ∀ size ∈ lens, size ≤ 15)
    (hFew : lens.length < 320) :
    Reads src 0 7 (addLengths src lens d) fun r => ∀ size ∈ r, size ≤ 15 := by
  have hMax : lenCodesMax = 457 := rfl
  have hMore : ∀ more : List Nat, (∀ size ∈ more, size ≤ 15) →
      Reads src 0 0 (pure (lens ++ more) : Inf (List Nat)) fun r => ∀ size ∈ r, size ≤ 15 := by
    intro more hMore
    refine reads_pure fun size hSize => ?_
    rcases List.mem_append.1 hSize with hOld | hNew
    · exact hLens size hOld
    · exact hMore size hNew
  unfold addLengths
  by_cases hd : d < 16
  · rw [if_pos hd, ensure_true (by omega)]
    refine (hMore [d] fun size hSize => ?_).mono (Nat.le_refl 0) (Nat.zero_le 7) fun _ h => h
    rw [List.mem_singleton.1 hSize]
    omega
  · rw [if_neg hd]
    by_cases hFirst : d = 16 ∧ lens = []
    · rw [if_pos hFirst]
      exact reads_raise
    · rw [if_neg hFirst]
      have hLast : ∀ size ∈ List.replicate 138 (if d = 16 then lens.getLastD 0 else 0),
          size ≤ 15 := by
        intro size hSize
        rw [List.eq_of_mem_replicate hSize]
        split
        · rcases List.eq_nil_or_concat lens with rfl | ⟨init, last, rfl⟩
          · exact Nat.zero_le 15
          · rw [List.concat_eq_append, List.getLastD_concat]
            exact hLens last (by simp)
        · exact Nat.zero_le 15
      have hRepeat : ∀ n, n ≤ 138 → Reads src 0 0 (do
          if n = 0 then raise .other
          ensure (lens.length + n ≤ lenCodesMax)
          return lens ++ List.replicate n (if d = 16 then lens.getLastD 0 else 0))
          fun r => ∀ size ∈ r, size ≤ 15 := by
        intro n hn
        by_cases hZero : n = 0
        · rw [if_pos hZero]
          exact reads_raise
        · rw [if_neg hZero, ensure_true (by omega)]
          refine hMore _ fun size hSize => hLast size ?_
          exact List.mem_replicate.2 ⟨by decide, List.eq_of_mem_replicate hSize⟩
      exact (reads_repeatCount d).bind hRepeat

/-- A round reads one symbol and the bits behind it. -/
theorem reads_readLengths (hTable : table.Decodes)
    (hShort : ∀ j, table.sizes.getD j 0 ≤ fastLookupBits) {total : Nat} (hTotal : total ≤ 320)
    (fuel : Nat) {lens : List Nat} (hLens : ∀ size ∈ lens, size ≤ 15) :
    Reads src 0 (22 * fuel) (readLengths src table total fuel lens)
      fun r => ∀ size ∈ r, size ≤ 15 := by
  induction fuel generalizing lens with
  | zero => exact reads_pure hLens
  | succ fuel ih =>
    rw [readLengths]
    by_cases hDone : total ≤ lens.length
    · rw [if_pos hDone]
      exact (reads_pure hLens).mono (Nat.zero_le _) (Nat.zero_le _) fun _ h => h
    · rw [if_neg hDone]
      have hSymbol : Reads src 1 15 (decodeHuffmanSymbol src table) (· < table.sizes.length) :=
        reads_decode hTable hShort
      have hRound := hSymbol.bind fun d _ =>
        (reads_addLengths d hLens (by omega)).bind fun lens' h => ih h
      exact hRound.mono (Nat.zero_le _) (by omega) fun _ h => h

theorem reads_liftBuild {b : Build α} (h : (∃ a, b = .ok a ∧ Q a) ∨ ∃ r, b = .error (.raise r)) :
    Reads src 0 0 (liftBuild b) Q := by
  rcases h with ⟨a, rfl, ha⟩ | ⟨r, rfl⟩
  · exact reads_pure ha
  · exact reads_raise

/-- A table is built, or its sizes are refused. -/
theorem buildTable_cases (hLe : ∀ size ∈ sizes, size ≤ 15)
    (hLength : sizes.length ≤ maxSymbolsCnt) :
    (∃ t, buildTable (.withSizes sizes) = .ok t ∧ t.sizes = sizes ∧ t.Decodes) ∨
      ∃ r, buildTable (.withSizes sizes) = .error (.raise r) := by
  by_cases hGood : Good sizes
  · exact Or.inl (buildTable_ok hGood hLength)
  · exact Or.inr ⟨.other, buildTable_raises hLe hGood⟩

/-- Sizes that tables are built from. -/
def SizesFit (sizes : List Nat × List Nat) : Prop :=
  (∀ size ∈ sizes.1, size ≤ 15) ∧ (∀ size ∈ sizes.2, size ≤ 15) ∧
    sizes.1.length ≤ maxSymbolsCnt ∧ sizes.2.length ≤ 32

theorem getD_le {m : Nat} (h : ∀ size ∈ sizes, size ≤ m) (j : Nat) :
    sizes.getD j 0 ≤ m := by
  by_cases hj : sizes.getD j 0 = 0
  · omega
  · exact h _ (size_mem hj)

/-- `decode_tables(2)` reads at most 7111 bits. -/
theorem reads_dynamicSizes :
    Reads src 0 7111 (dynamicSizes src) fun r => SizesFit (r.1, r.2.1) := by
  have hZigzag : ∀ n, (zigzag.take n).length ≤ 19 := by
    intro n
    rw [List.length_take]
    exact Nat.min_le_right _ _
  have hOrder : ∀ n, ∀ sym ∈ zigzag.take n, sym < (List.replicate 19 0).length := by
    intro n sym hSym
    have hAll : ∀ sym ∈ zigzag, sym < 19 := by decide
    exact hAll sym (List.mem_of_mem_take hSym)
  have hCodes : ∀ n, Reads src 0 57 (readCodeSizes src (zigzag.take n) (List.replicate 19 0))
      fun r => r.length = 19 ∧ ∀ size ∈ r, size ≤ 7 := by
    intro n
    refine (reads_readCodeSizes (zigzag.take n) (hOrder n) ?_).mono (Nat.zero_le _) ?_ fun _ h => h
    · intro size hSize
      rw [List.eq_of_mem_replicate hSize]
      exact Nat.zero_le 7
    · have := hZigzag n
      omega
  have hTable : ∀ sizes : List Nat, (sizes.length = 19 ∧ ∀ size ∈ sizes, size ≤ 7) →
      Reads src 0 0 (liftBuild (buildTable (.withSizes sizes)))
        fun t => t.Decodes ∧ ∀ j, t.sizes.getD j 0 ≤ fastLookupBits := by
    rintro sizes ⟨hLength, hSizes⟩
    refine reads_liftBuild ?_
    rcases buildTable_cases (fun size h => (hSizes size h).trans (by decide))
      (hLength.le.trans (by decide)) with ⟨t, hRun, hSame, hDecodes⟩ | ⟨r, hRun⟩
    · refine Or.inl ⟨t, hRun, hDecodes, fun j => ?_⟩
      rw [hSame]
      exact (getD_le hSizes j).trans (by decide)
    · exact Or.inr ⟨r, hRun⟩
  have hEnd : ∀ (literals distances : Nat) (t : HuffmanTable) (lens : List Nat), literals < 2 ^ 5 →
      distances < 2 ^ 5 → (∀ size ∈ lens, size ≤ 15) →
      Reads src 0 0 (do
        if literals + 257 + (distances + 1) ≠ lens.length then raise .other
        return (lens.take (literals + 257), lens.drop (literals + 257), t))
        fun r : List Nat × List Nat × HuffmanTable => SizesFit (r.1, r.2.1) := by
    intro literals distances t lens hLiterals hDistances hLens
    by_cases hCount : literals + 257 + (distances + 1) ≠ lens.length
    · rw [if_pos hCount]
      exact reads_raise
    · rw [if_neg hCount]
      refine reads_pure ⟨?_, ?_, ?_, ?_⟩
      · exact fun size hSize => hLens size (List.mem_of_mem_take hSize)
      · exact fun size hSize => hLens size (List.mem_of_mem_drop hSize)
      · rw [List.length_take]
        have : maxSymbolsCnt = 288 := rfl
        omega
      · rw [List.length_drop]
        omega
  have hLengths : ∀ (literals distances : Nat) (t : HuffmanTable), literals < 2 ^ 5 →
      distances < 2 ^ 5 → (t.Decodes ∧ ∀ j, t.sizes.getD j 0 ≤ fastLookupBits) →
      Reads src 0 7040 (readLengths src t (literals + 257 + (distances + 1))
        (literals + 257 + (distances + 1)) []) fun r => ∀ size ∈ r, size ≤ 15 := by
    rintro literals distances t hLiterals hDistances ⟨hDecodes, hShort⟩
    refine (reads_readLengths hDecodes hShort (by omega) _ (by simp)).mono (Nat.zero_le _) ?_
      fun _ h => h
    omega
  have hBits : ∀ n, n ≤ 15 → Reads src n n (getBits src n) (· < 2 ^ n) := fun n => reads_getBits
  -- the bits of the three counts, the code lengths, their table, the lengths
  have hAll := (hBits 5 (by decide)).bind fun a ha =>
    (hBits 5 (by decide)).bind fun b hb =>
      (hBits 4 (by decide)).bind fun c _ =>
        (hCodes (c + 4)).bind fun sizes hSizes =>
          (hTable sizes hSizes).bind fun t ht =>
            (hLengths a b t ha hb ht).bind fun lens hLens => hEnd a b t lens ha hb hLens
  exact hAll.mono (Nat.zero_le _) (Nat.le_refl _) fun _ h => h

end

end TcfAgent.Inflate
