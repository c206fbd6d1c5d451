import TcfAgent.Framework.InflateInput

/-!
# The symbols of the decompressor

What `decode_huffman_symbol` takes from the bits that have not been taken yet: those in
`inp_bit_buf`, the lowest one first, and those of the bytes behind `inp_pos`. A code is taken from
its highest bit on.

Main results

* `decode_canonical`     — tables are built, and the symbol is the one whose code comes next
* `not_decode_at_end`    — but not where less than 15 bits are left
-/

namespace TcfAgent.Inflate

open TcfAgent.Lib

section

variable (src : List UInt8)

/-- The bits that have not been taken. -/
def unread (s : State) : List Bool :=
  lowBits s.bitCnt s.bitBuf ++ (src.drop s.inpPos).flatMap fun b => lowBits 8 b.toNat

/-- Nothing is in `inp_bit_buf` but the bits that are counted, and the position of 32 bits does not
wrap before a symbol has been read. -/
structure Feeds (s : State) : Prop where
  buf : s.bitBuf < 2 ^ s.bitCnt
  pos : src.length < 2 ^ 32 ∨ s.inpPos + 2 < 2 ^ 32

end

section

variable {src : List UInt8} {s : State} {n : Nat}

/-! ## Bits -/

/-- A byte goes from the input to `inp_bit_buf`. -/
theorem unread_fetch (hBuf : s.bitBuf < 2 ^ s.bitCnt) (hCnt : s.bitCnt < 15)
    (hLt : s.inpPos < src.length) (hPos : s.inpPos + 1 < 2 ^ 32) :
    unread src (s.fetch (src.get ⟨s.inpPos, hLt⟩)) = unread src s ∧
      (s.fetch (src.get ⟨s.inpPos, hLt⟩)).bitBuf < 2 ^ (s.bitCnt + 8) := by
  have hByte := (src.get ⟨s.inpPos, hLt⟩).toNat_lt
  have hShift : (src.get ⟨s.inpPos, hLt⟩).toNat <<< s.bitCnt < 2 ^ (s.bitCnt + 8) := by
    rw [Nat.shiftLeft_eq, pow_add, Nat.mul_comm]
    exact Nat.mul_lt_mul_of_pos_left hByte (Nat.two_pow_pos _)
  have hPow : 2 ^ (s.bitCnt + 8) ≤ 2 ^ 32 := Nat.pow_le_pow_right (by decide) (by omega)
  have hWord : u32 ((src.get ⟨s.inpPos, hLt⟩).toNat <<< s.bitCnt) =
      (src.get ⟨s.inpPos, hLt⟩).toNat <<< s.bitCnt := Nat.mod_eq_of_lt (by omega)
  have hNext : u32 (s.inpPos + 1) = s.inpPos + 1 := Nat.mod_eq_of_lt hPos
  refine ⟨?_, ?_⟩
  · simp only [unread, State.fetch, hWord, hNext]
    rw [lowBits_or hBuf, List.drop_eq_getElem_cons hLt, List.flatMap_cons, List.append_assoc]
    rfl
  · simp only [State.fetch, hWord]
    have hLow : s.bitBuf < 2 ^ (s.bitCnt + 8) :=
      hBuf.trans_le (Nat.pow_le_pow_right (by decide) (Nat.le_add_right _ _))
    exact Nat.or_lt_two_pow hLow hShift

theorem length_unread : (unread src s).length = s.bitCnt + 8 * (src.length - s.inpPos) := by
  have hBytes : ∀ bytes : List UInt8,
      (bytes.flatMap fun b => lowBits 8 b.toNat).length = 8 * bytes.length := by
    intro bytes
    simp [List.length_flatMap, Nat.mul_comm]
  rw [unread, List.length_append, length_lowBits, hBytes, List.length_drop]

/-- `while (inp_bit_cnt < 15)`: there have to be 15 bits. -/
theorem fill_unread (fuel : Nat) (hFuel : 15 ≤ s.bitCnt + fuel) (hBuf : s.bitBuf < 2 ^ s.bitCnt)
    (hPos : src.length < 2 ^ 32 ∨ 8 * s.inpPos + 24 ≤ 8 * 2 ^ 32 + s.bitCnt) :
    ((unread src s).length < 15 → fill src 15 fuel s = .error (.raise .bufferOverflow)) ∧
      (15 ≤ (unread src s).length → ∃ t, fill src 15 fuel s = .ok ((), t) ∧ 15 ≤ t.bitCnt ∧
        t.bitBuf < 2 ^ t.bitCnt ∧ unread src t = unread src s) := by
  induction fuel generalizing s with
  | zero =>
    refine ⟨fun hFew => ?_, fun _ => ⟨s, rfl, by omega, hBuf, rfl⟩⟩
    rw [length_unread] at hFew
    omega
  | succ fuel ih =>
    have hRun : fill src 15 (fuel + 1) s =
        (if s.bitCnt < 15 then fetchByte src >>= fun _ => fill src 15 fuel else pure ()) s := rfl
    rw [hRun]
    by_cases hCnt : s.bitCnt < 15
    · rw [if_pos hCnt]
      by_cases hEnd : src.length ≤ s.inpPos
      · have hByte : fetchByte src s = .error (.raise .bufferOverflow) := by
          rw [fetchByte_eq, if_pos hEnd]
        refine ⟨fun _ => bind_of_error hByte, fun hMany => ?_⟩
        rw [length_unread] at hMany
        omega
      · have hLt : s.inpPos < src.length := by omega
        have hByte : fetchByte src s = .ok ((), s.fetch (src.get ⟨s.inpPos, hLt⟩)) := by
          rw [fetchByte_eq, if_neg hEnd, List.getElem?_eq_getElem hLt]
          exact if_pos (by omega)
        have hWrap : s.inpPos + 1 < 2 ^ 32 := by omega
        obtain ⟨hSame, hFetched⟩ := unread_fetch hBuf hCnt hLt hWrap
        have hNext : src.length < 2 ^ 32 ∨
            8 * (s.fetch (src.get ⟨s.inpPos, hLt⟩)).inpPos + 24 ≤
              8 * 2 ^ 32 + (s.fetch (src.get ⟨s.inpPos, hLt⟩)).bitCnt := by
          have hMod : u32 (s.inpPos + 1) = s.inpPos + 1 := Nat.mod_eq_of_lt hWrap
          simp only [State.fetch, hMod]
          omega
        have hMore : 15 ≤ (s.fetch (src.get ⟨s.inpPos, hLt⟩)).bitCnt + fuel := by
          simp only [State.fetch]
          omega
        have hRest := ih hMore hFetched hNext
        rw [hSame] at hRest
        rw [bind_of_ok hByte]
        exact hRest
    · rw [if_neg hCnt]
      refine ⟨fun hFew => ?_, fun _ => ⟨s, rfl, by omega, hBuf, rfl⟩⟩
      rw [length_unread] at hFew
      omega

theorem dropBits_unread (hn : n ≤ s.bitCnt) (hBuf : s.bitBuf < 2 ^ s.bitCnt) :
    ∃ t, dropBits n s = .ok ((), t) ∧ t.bitBuf < 2 ^ t.bitCnt ∧
      unread src s = lowBits n s.bitBuf ++ unread src t := by
  have hRun : dropBits n s = (ensure (n ≤ s.bitCnt) >>= fun _ =>
      (modify fun s => { s with bitBuf := s.bitBuf >>> n, bitCnt := s.bitCnt - n } : Inf Unit)) s :=
    rfl
  have hSum : s.bitCnt = n + (s.bitCnt - n) := by omega
  refine ⟨{ s with bitBuf := s.bitBuf >>> n, bitCnt := s.bitCnt - n }, ?_, ?_, ?_⟩
  · rw [hRun, ensure_true hn]
    rfl
  · show s.bitBuf >>> n < 2 ^ (s.bitCnt - n)
    rw [Nat.shiftRight_eq_div_pow, Nat.div_lt_iff_lt_mul (Nat.two_pow_pos n), ← pow_add]
    rwa [Nat.sub_add_cancel hn]
  · unfold unread
    rw [← List.append_assoc, ← lowBits_add, ← hSum]

/-! ## Symbols -/

variable {table : HuffmanTable}

/-- A code is at the beginning of the bits that are read ahead. -/
theorem prefix_unread {sizes : List Nat} {sym : Nat} (hSize : sizes.getD sym 0 ≤ s.bitCnt) :
    Begins sizes sym s.bitBuf ↔ sizes.getD sym 0 ≠ 0 ∧ codeBits sizes sym <+: unread src s := by
  rw [begins_iff_mem hSize]
  refine and_congr_right fun _ => ⟨fun h => h.trans (List.prefix_append _ _), fun h => ?_⟩
  exact List.prefix_of_prefix_length_le h (List.prefix_append _ _) (by simpa [length_codeBits])

/-- The symbol whose code has been found. -/
theorem decode_found {t : State} {sym : Nat} (hTable : table.Decodes)
    (hFill : fill src 15 15 s = .ok ((), t)) (hCnt : 15 ≤ t.bitCnt) (hBuf : t.bitBuf < 2 ^ t.bitCnt)
    (hBegins : Begins table.sizes sym t.bitBuf)
    (hLookup : lookupSymbol table t.bitBuf = .ok ⟨sym, table.sizes.getD sym 0, false⟩) :
    ∃ u, decodeHuffmanSymbol src table s = .ok (sym, u) ∧ u.bitBuf < 2 ^ u.bitCnt ∧
      unread src t = codeBits table.sizes sym ++ unread src u := by
  have hSize := hTable.good.le sym
  have hGet : (get : Inf State) t = .ok (t, t) := rfl
  have hLeft : ∃ u, dropBits (table.sizes.getD sym 0) t = .ok ((), u) ∧ u.bitBuf < 2 ^ u.bitCnt ∧
      unread src t = lowBits (table.sizes.getD sym 0) t.bitBuf ++ unread src u :=
    dropBits_unread (hSize.trans hCnt) hBuf
  obtain ⟨u, hDrop, hClean, hRest⟩ := hLeft
  refine ⟨u, ?_, hClean, by rw [hRest, lowBits_begins hBegins]⟩
  rw [decodeHuffmanSymbol_eq, bind_of_ok hFill, bind_of_ok hGet, hLookup, liftBuild_ok, pure_bind,
    ensure_true hSize, pure_bind, if_neg hBegins.1, pure_bind, bind_of_ok hDrop]
  rfl

/-- There is no symbol where no code comes next. -/
theorem decode_not_found {t : State} (hFill : fill src 15 15 s = .ok ((), t))
    (hLookup : lookupSymbol table t.bitBuf = .ok .zero ∨
      lookupSymbol table t.bitBuf = .error .fault) :
    ∃ e, decodeHuffmanSymbol src table s = .error e := by
  have hGet : (get : Inf State) t = .ok (t, t) := rfl
  rw [decodeHuffmanSymbol_eq, bind_of_ok hFill, bind_of_ok hGet]
  rcases hLookup with hZero | hFault
  · rw [hZero, liftBuild_ok, pure_bind]
    exact ⟨.raise .other, rfl⟩
  · rw [hFault]
    exact ⟨.fault, rfl⟩

/-- The symbol of which the code comes next. -/
theorem decode_unread (hTable : table.Decodes) (hFeeds : Feeds src s) :
    ((unread src s).length < 15 →
      decodeHuffmanSymbol src table s = .error (.raise .bufferOverflow)) ∧
    (15 ≤ (unread src s).length → ∀ sym,
      (table.sizes.getD sym 0 ≠ 0 → codeBits table.sizes sym <+: unread src s →
        ∃ t, decodeHuffmanSymbol src table s = .ok (sym, t) ∧ t.bitBuf < 2 ^ t.bitCnt ∧
          unread src s = codeBits table.sizes sym ++ unread src t) ∧
      ∀ t, decodeHuffmanSymbol src table s = .ok (sym, t) →
        table.sizes.getD sym 0 ≠ 0 ∧ codeBits table.sizes sym <+: unread src s) := by
  have hPos : src.length < 2 ^ 32 ∨ 8 * s.inpPos + 24 ≤ 8 * 2 ^ 32 + s.bitCnt := by
    have := hFeeds.pos
    omega
  obtain ⟨hFew, hMany⟩ := fill_unread 15 (Nat.le_add_left 15 _) hFeeds.buf hPos
  refine ⟨fun h => ?_, fun h sym => ?_⟩
  · rw [decodeHuffmanSymbol_eq]
    exact bind_of_error (hFew h)
  obtain ⟨t, hFill, hCnt, hBuf, hSame⟩ := hMany h
  have hNext : Begins table.sizes sym t.bitBuf ↔
      table.sizes.getD sym 0 ≠ 0 ∧ codeBits table.sizes sym <+: unread src s := by
    rw [← hSame]
    exact prefix_unread ((hTable.good.le sym).trans hCnt)
  rcases hTable.lookup_cases t.bitBuf with ⟨j, hBegins, hLookup⟩ | ⟨hNone, hEmpty⟩
  · obtain ⟨u, hRun, hClean, hRest⟩ := decode_found hTable hFill hCnt hBuf hBegins hLookup
    rw [hSame] at hRest
    refine ⟨fun hUsed hPrefix => ?_, fun t' hRun' => ?_⟩
    · obtain rfl := hTable.good.fits.begins_unique (hNext.2 ⟨hUsed, hPrefix⟩) hBegins
      exact ⟨u, hRun, hClean, hRest⟩
    · cases hRun.symm.trans hRun'
      exact hNext.1 hBegins
  · obtain ⟨e, hRun⟩ := decode_not_found hFill (hEmpty.imp And.right And.right)
    refine ⟨fun hUsed hPrefix => absurd (hNext.2 ⟨hUsed, hPrefix⟩) (hNone sym), fun t' hRun' => ?_⟩
    cases hRun.symm.trans hRun'

end

/-! ## Entries of the tree -/

/-- Where the loop over the symbols begins. -/
def HuffmanTable.builder (t : HuffmanTable) : Builder :=
  ⟨t.lookup, t.tree, 0, (List.range 17).map t.symsNext⟩

section

variable {sizes : List Nat}

theorem insertSymbols_append (b : Builder) (sym size : Nat) (sizes : List Nat) :
    insertSymbols b sym (sizes ++ [size]) =
      insertSymbols b sym sizes >>= fun b => insertSymbol b (sym + sizes.length) size := by
  induction sizes generalizing b sym with
  | nil =>
    change insertSymbols b sym [size] = insertSymbol b sym size
    rw [insertSymbols]
    cases insertSymbol b sym size with
    | error e => rfl
    | ok b => rfl
  | cons first sizes ih =>
    rw [List.cons_append, insertSymbols, insertSymbols]
    cases insertSymbol b sym first with
    | error e => rfl
    | ok b =>
      have hLength : sym + (first :: sizes).length = sym + 1 + sizes.length := by
        rw [List.length_cons]
        omega
      rw [hLength]
      exact ih b (sym + 1)

theorem insertSymbols_take (hGood : Good sizes) (hLength : sizes.length ≤ maxSymbolsCnt) {n : Nat}
    (hn : n ≤ sizes.length) :
    ∃ b nodes, insertSymbols (HuffmanTable.withSizes sizes).builder 0 (sizes.take n) = .ok b ∧
      Built sizes n nodes b := by
  induction n with
  | zero => exact ⟨_, [], rfl, built_start⟩
  | succ n ih =>
    obtain ⟨b, nodes, hRun, hBuilt⟩ := ih (by omega)
    obtain ⟨b', nodes', hStep, hBuilt'⟩ := insertSymbol_ok hGood hLength hn hBuilt
    refine ⟨b', nodes', ?_, hBuilt'⟩
    rw [take_succ hn, insertSymbols_append, hRun, List.length_take, Nat.min_eq_left (by omega),
      Nat.zero_add]
    exact hStep

/-- The tree has as many entries as it needs. -/
theorem tree_suffices (hGood : Good sizes) (hLength : sizes.length ≤ maxSymbolsCnt) (n : Nat) :
    ∃ b, insertSymbols (HuffmanTable.withSizes sizes).builder 0 (sizes.take n) = .ok b ∧
      b.nextCode ≤ maxSymbolsCnt * 2 := by
  have hTake : sizes.take n = sizes.take (min n sizes.length) := by
    rw [List.take_eq_take_min]
  obtain ⟨b, nodes, hRun, hBuilt⟩ :=
    insertSymbols_take hGood hLength (Nat.min_le_right n sizes.length)
  refine ⟨b, hTake ▸ hRun, ?_⟩
  have hNodes := hBuilt.grown.shape.length_le hGood hLength
  rw [hBuilt.next]
  omega

/-- Tables are built from every complete code and every single one. Their trees are large enough,
and the symbol that is read is the one whose code comes next. -/
theorem decode_canonical (sizes : List Nat) (hGood : Good sizes)
    (hLength : sizes.length ≤ maxSymbolsCnt) :
    ∃ t, buildTable (.withSizes sizes) = .ok t ∧
      (∀ n, ∃ b, insertSymbols (HuffmanTable.withSizes sizes).builder 0 (sizes.take n) = .ok b ∧
        b.nextCode ≤ maxSymbolsCnt * 2) ∧
      ∀ (src : List UInt8) (s : State), Feeds src s →
        ((unread src s).length < 15 →
          decodeHuffmanSymbol src t s = .error (.raise .bufferOverflow)) ∧
        (15 ≤ (unread src s).length → ∀ sym,
          (sizes.getD sym 0 ≠ 0 → codeBits sizes sym <+: unread src s →
            ∃ s', decodeHuffmanSymbol src t s = .ok (sym, s') ∧ s'.bitBuf < 2 ^ s'.bitCnt ∧
              unread src s = codeBits sizes sym ++ unread src s') ∧
          ∀ s', decodeHuffmanSymbol src t s = .ok (sym, s') →
            sizes.getD sym 0 ≠ 0 ∧ codeBits sizes sym <+: unread src s) := by
  obtain ⟨t, hRun, hSizes, hDecodes⟩ := buildTable_ok hGood hLength
  refine ⟨t, hRun, tree_suffices hGood hLength, fun src s hFeeds => ?_⟩
  have hAll := decode_unread hDecodes hFeeds
  rw [hSizes] at hAll
  exact hAll

end

/-- The state in front of the input. -/
def State.initial : State := ⟨0, 0, 0, [], 0, ⟨.zero, .zero, .zero⟩, false⟩

theorem good_three : Good [1, 2, 2] := .complete ⟨by decide, by decide⟩

/-- The second symbol of three: its code is 10. -/
theorem decode_canonical_three :
    ∃ t s', buildTable (.withSizes [1, 2, 2]) = .ok t ∧
      decodeHuffmanSymbol [1, 0] t .initial = .ok (1, s') ∧
      unread [1, 0] .initial = [true, false] ++ unread [1, 0] s' := by
  obtain ⟨t, hRun, -, hDecode⟩ := decode_canonical [1, 2, 2] good_three (by decide)
  have hFeeds : Feeds [1, 0] .initial := ⟨by decide, Or.inl (by decide)⟩
  obtain ⟨s', hSymbol, -, hRest⟩ :=
    ((hDecode [1, 0] .initial hFeeds).2 (by decide) 1).1 (by decide) (by decide)
  exact ⟨t, s', hRun, hSymbol, hRest⟩

/-- A code comes next, but it is not followed by enough bits. -/
theorem not_decode_at_end : ¬ ∀ sizes : List Nat, Good sizes → sizes.length ≤ maxSymbolsCnt →
    ∃ t, buildTable (.withSizes sizes) = .ok t ∧
      ∀ (src : List UInt8) (s : State), Feeds src s → ∀ sym, sizes.getD sym 0 ≠ 0 →
        codeBits sizes sym <+: unread src s →
        ∃ s', decodeHuffmanSymbol src t s = .ok (sym, s') ∧
          unread src s = codeBits sizes sym ++ unread src s' := by
  intro hAll
  obtain ⟨t, hRun, hDecode⟩ := hAll [1, 2, 2] good_three (by decide)
  obtain ⟨t', hRun', -, hDecodes⟩ := buildTable_ok good_three (by decide)
  cases hRun.symm.trans hRun'
  have hFeeds : Feeds [1] .initial := ⟨by decide, Or.inl (by decide)⟩
  obtain ⟨s', hSymbol, -⟩ := hDecode [1] .initial hFeeds 1 (by decide) (by decide)
  rw [(decode_unread hDecodes hFeeds).1 (by decide)] at hSymbol
  cases hSymbol

end TcfAgent.Inflate
