import TcfAgent.Framework.JsonBuffers

/-!
# Strings are read as they were written

A string that `json_write_string_len` has written, read by each of the three readers of
`framework/json.c`. An array is a list of texts with what they denote: a string or `null`.

Main results

* `writeChars_eq`        — runs of less than 4 GB are written as they are
* `readStrings_items`    — the elements of an array, until `len_buf` cannot grow
* `strings_read_back`    — a string is read back exactly where it has less than 2^31 bytes and so
  many elements are in the array
-/

namespace TcfAgent.JsonBuffers

open TcfAgent.Lib TcfAgent.JsonString TcfAgent.JsonText

/-! ## The writer -/

theorem writeRun_eq {run : Text} (h : run.length < 2 ^ 32) : writeRun run = run := by
  rw [writeRun, u32, Nat.mod_eq_of_lt h, List.take_length]

theorem jsonWriteChar_of_escaping {c : UInt8} (h : charEscaping c = true) :
    jsonWriteChar c = writeEscapeSeq c := if_pos h

theorem jsonWriteChar_of_plain {c : UInt8} (h : ¬ charEscaping c = true) :
    jsonWriteChar c = [c] := if_neg h

/-- Characters are written one after another. -/
theorem writeChars_eq {run str : Text} (h : run.length + str.length < 2 ^ 32) :
    writeChars run str = run ++ str.flatMap jsonWriteChar := by
  induction str generalizing run with
  | nil => rw [writeChars, writeRun_eq (by simpa using h), List.flatMap_nil, List.append_nil]
  | cons c str ih =>
    rw [List.length_cons] at h
    rw [writeChars, List.flatMap_cons]
    by_cases hEscape : charEscaping c = true
    · rw [if_pos hEscape, writeRun_eq (by omega), ih (by simp; omega),
        jsonWriteChar_of_escaping hEscape, List.nil_append, List.append_assoc]
    · rw [if_neg hEscape, ih (by simp; omega), jsonWriteChar_of_plain hEscape, List.append_assoc]

theorem jsonWriteStringLen_eq {s : Text} (h : s.length < 2 ^ 32) :
    jsonWriteStringLen (some s) = JsonText.jsonWriteString s := by
  rw [jsonWriteStringLen, writeChars_eq (by simpa using h)]
  rfl

/-! ## Elements -/

/-- A string or `null`, and what follows. -/
def readItem (text : Text) : Option (Option Text × Text) :=
  match text.dropWhile isSpace with
  | 110 :: 117 :: 108 :: 108 :: rest => some (none, rest)
  | 34 :: rest =>
    match readChars (rest.length + 1) [] rest with
    | ⟨w, some rest⟩ => some (some w, rest)
    | ⟨_, none⟩ => none
  | _ => none

/-- The text denotes a string or `null`, whatever follows but white space. -/
def Denotes (text : Text) (v : Option Text) : Prop :=
  ∀ rest, ∃ rest', readItem (text ++ rest) = some (v, rest') ∧
    rest'.dropWhile isSpace = rest.dropWhile isSpace

section

variable {b : TmpBuf} {text rest s : Text} {v : Option Text}

theorem dropWhile_dropWhile (text : Text) :
    (text.dropWhile isSpace).dropWhile isSpace = text.dropWhile isSpace :=
  List.dropWhile_idempotent _ _

/-- An item is `null` or a string. -/
theorem readItem_cases (h : readItem text = some (v, rest)) :
    (text.dropWhile isSpace = 110 :: 117 :: 108 :: 108 :: rest ∧ v = none) ∨
      ∃ tail w, text.dropWhile isSpace = 34 :: tail ∧
        readChars (tail.length + 1) [] tail = ⟨w, some rest⟩ ∧ v = some w := by
  unfold readItem at h
  split at h
  · rename_i hText
    cases h
    exact Or.inl ⟨hText, rfl⟩
  · rename_i tail hText
    split at h
    · rename_i w rest' hChars
      cases h
      exact Or.inr ⟨tail, w, hText, hChars, rfl⟩
    · cases h
  · cases h

theorem readItem_congr {text' : Text} (h : text.dropWhile isSpace = text'.dropWhile isSpace) :
    readItem text = readItem text' := by
  unfold readItem
  rw [h]

/-- An element of an array, as it is read. -/
theorem readElement_eq (hFits : b.Fits) (h : readItem text = some (v, rest)) :
    ∃ b', readElement b text = .ok ((v.getD []).length, b', rest) ∧
      b'.bytes = b.bytes ++ v.getD [] ∧ b'.Fits := by
  unfold readElement
  rcases readItem_cases h with ⟨hText, rfl⟩ | ⟨tail, w, hText, hChars, rfl⟩
  · rw [hText]
    exact ⟨b, rfl, by simp, hFits⟩
  · obtain ⟨b', hFold, hBytes, hFits'⟩ := hFits.foldlM w
    refine ⟨b', ?_, hBytes, hFits'⟩
    rw [hText]
    simp only [@readLiteral_eq _ TmpBuf.add b tail rest w (tail.length + 1) hChars, hFold]
    show Except.ok (b'.bytes.length - b.bytes.length, b', rest) = _
    rw [hBytes, List.length_append, Nat.add_sub_cancel_left]
    rfl

theorem denotes_null : Denotes (ascii "null") none := fun rest => ⟨rest, rfl, rfl⟩

theorem denotes_write (h : s.length < 2 ^ 32) : Denotes (jsonWriteStringLen (some s)) (some s) := by
  intro rest
  refine ⟨rest, ?_, rfl⟩
  have hChars := readChars_jsonWriteString s rest
  rw [jsonWriteStringLen_eq h, JsonText.jsonWriteString]
  unfold readItem
  rw [List.cons_append, List.append_assoc]
  have hDrop : (34 :: (s.flatMap jsonWriteChar ++ ([34] ++ rest))).dropWhile isSpace =
      34 :: (s.flatMap jsonWriteChar ++ 34 :: rest) := rfl
  rw [hDrop]
  simp only [hChars]

end

/-! ## Arrays -/

/-- An element of an array: its text and what it denotes. -/
structure Item where
  text  : Text
  value : Option Text
  hDenotes : Denotes text value

/-- The bytes of an element in memory. -/
def Item.bytes (item : Item) : Text := item.value.getD [] ++ [0]

def Item.len (item : Item) : Nat := (item.value.getD []).length

/-- Elements behind one another, up to the closing bracket. -/
def elementsText : List Text → Text
  | [] => [93]
  | [text] => text ++ [93]
  | text :: texts => text ++ 44 :: elementsText texts

def arrayText (texts : List Text) : Text := 91 :: elementsText texts

def itemsText (items : List Item) : Text := elementsText (items.map Item.text)

theorem itemsText_single (item : Item) : itemsText [item] = item.text ++ [93] := rfl

theorem itemsText_cons (item item' : Item) (items : List Item) :
    itemsText (item :: item' :: items) = item.text ++ 44 :: itemsText (item' :: items) := rfl

section

variable {lens : LenBuf} {lenPos : Nat}

theorem LenBuf.size_grow (lens : LenBuf) :
    lens.grow.size = if lens.size = 0 then 0x100 else u32 (lens.size * 2) := rfl

theorem LenBuf.size_le (lens : LenBuf) : lens.size ≤ 2 ^ 31 := by
  rcases lens.hSize with hZero | ⟨k, -, h31, hSize⟩
  · omega
  · rw [hSize]
    exact Nat.pow_le_pow_right (by decide) h31

/-- There is room for one more length, unless there are 2^31. -/
theorem LenBuf.lt_reserve (h : lenPos ≤ lens.size) :
    lenPos < (lens.reserve lenPos).size ↔ lenPos < 2 ^ 31 := by
  have hMax := (lens.reserve lenPos).size_le
  refine ⟨fun hLt => by omega, fun hLt => ?_⟩
  unfold LenBuf.reserve
  by_cases hFull : lens.size ≤ lenPos
  · obtain rfl : lenPos = lens.size := by omega
    have hMod : u32 (lens.size * 2) = lens.size * 2 := Nat.mod_eq_of_lt (by omega)
    rw [if_pos hFull, LenBuf.size_grow, hMod]
    split <;> omega
  · rw [if_neg hFull]
    omega

end

section

variable {s : ArrayState} {item : Item} {items : List Item} {rest : Text}

/-- Positions are in their buffers. -/
structure ArrayState.Fits (s : ArrayState) : Prop where
  lens : s.lengths.length ≤ s.lens.size
  tmp  : s.tmp.Fits

/-- What a list of elements adds. -/
structure ArrayState.Adds (s : ArrayState) (items : List Item) (s' : ArrayState) : Prop where
  fits    : s'.Fits
  lengths : s'.lengths = s.lengths ++ items.map Item.len
  bytes   : s'.tmp.bytes = s.tmp.bytes ++ items.flatMap Item.bytes

/-- A round reads an element, if there is room for its length. -/
theorem round_eq (hFits : s.Fits)
    (hText : s.text.dropWhile isSpace = (item.text ++ rest).dropWhile isSpace) :
    (s.lengths.length < 2 ^ 31 → ∃ s', s.round = .ok s' ∧ s.Adds [item] s' ∧
      s'.text = rest.dropWhile isSpace) ∧
    (2 ^ 31 ≤ s.lengths.length → s.round = .error .fault) := by
  obtain ⟨rest', hItem, hRest⟩ := item.hDenotes rest
  rw [← readItem_congr hText] at hItem
  obtain ⟨b₁, hElement, hBytes₁, hFits₁⟩ := readElement_eq hFits.tmp hItem
  obtain ⟨b₂, hAdd, hBytes₂, hFits₂⟩ := hFits₁.add 0
  have hRoom := LenBuf.lt_reserve hFits.lens
  have hRun : s.round =
      if s.lengths.length < (s.lens.reserve s.lengths.length).size then
        .ok ⟨s.lens.reserve s.lengths.length, s.lengths ++ [item.len], b₂, rest'.dropWhile isSpace⟩
      else .error .fault := by
    unfold ArrayState.round
    rw [hElement]
    show (b₁.add 0 >>= _) = _
    rw [hAdd]
    rfl
  rw [hRun]
  refine ⟨fun hFew => ?_, fun hMany => if_neg (by omega)⟩
  have hLt := hRoom.2 hFew
  refine ⟨_, if_pos hLt, ⟨⟨?_, hFits₂⟩, rfl, ?_⟩, hRest⟩
  · show (s.lengths ++ [item.len]).length ≤ _
    rw [List.length_append]
    exact hLt
  · show b₂.bytes = _
    rw [hBytes₂, hBytes₁, List.append_assoc]
    simp [Item.bytes]

theorem readStrings_error {e : Stop Failure} (fuel : Nat) (h : s.round = .error e) :
    readStrings (fuel + 1) s = .error e := by
  rw [readStrings, h]
  rfl

theorem readStrings_next {s' : ArrayState} (fuel : Nat) (h : s.round = .ok s')
    (hText : s'.text = 44 :: rest) :
    readStrings (fuel + 1) s = readStrings fuel { s' with text := rest } := by
  obtain ⟨lens, lengths, tmp, text⟩ := s'
  subst hText
  rw [readStrings, h]
  rfl

theorem readStrings_last {s' : ArrayState} (fuel : Nat) (h : s.round = .ok s')
    (hText : s'.text = 93 :: rest) :
    readStrings (fuel + 1) s = .ok { s' with text := rest } := by
  obtain ⟨lens, lengths, tmp, text⟩ := s'
  subst hText
  rw [readStrings, h]
  rfl

/-- All elements are read, if there is room for their lengths. -/
theorem readStrings_items {fuel : Nat} (hFuel : items.length ≤ fuel) (hSome : items ≠ [])
    (hFits : s.Fits)
    (hText : s.text.dropWhile isSpace = (itemsText items ++ rest).dropWhile isSpace) :
    (s.lengths.length + items.length ≤ 2 ^ 31 → ∃ s', readStrings fuel s = .ok s' ∧
      s.Adds items s' ∧ s'.text = rest) ∧
    (2 ^ 31 < s.lengths.length + items.length → readStrings fuel s = .error .fault) := by
  induction items generalizing fuel s with
  | nil => exact absurd rfl hSome
  | cons item items ih =>
    obtain ⟨fuel, rfl⟩ : ∃ m, fuel = m + 1 := ⟨fuel - 1, by simp at hFuel; omega⟩
    rw [List.length_cons] at hFuel ⊢
    cases items with
    | nil =>
      have hLast : s.text.dropWhile isSpace = (item.text ++ 93 :: rest).dropWhile isSpace := by
        rw [hText, itemsText_single, List.append_assoc]
        rfl
      obtain ⟨hRead, hFull⟩ := round_eq hFits hLast
      refine ⟨fun hFew => ?_, fun hMany => readStrings_error fuel (hFull ?_)⟩
      · obtain ⟨s₁, hRun, hAdds, hNext⟩ := hRead (by simpa using hFew)
        exact ⟨_, readStrings_last fuel hRun hNext,
          ⟨⟨hAdds.fits.lens, hAdds.fits.tmp⟩, hAdds.lengths, hAdds.bytes⟩, rfl⟩
      · simp only [List.length_nil] at hMany
        omega
    | cons item' items =>
      have hMore : s.text.dropWhile isSpace =
          (item.text ++ 44 :: (itemsText (item' :: items) ++ rest)).dropWhile isSpace := by
        rw [hText, itemsText_cons, List.append_assoc]
        rfl
      obtain ⟨hRead, hFull⟩ := round_eq hFits hMore
      -- the array of lengths grows, until its size in 32 bits is zero
      rcases Nat.lt_or_ge s.lengths.length (2 ^ 31) with hRoom | hEnd
      · obtain ⟨s₁, hRun, hAdds, hNext⟩ := hRead hRoom
        have hLength : s₁.lengths.length = s.lengths.length + 1 := by simp [hAdds.lengths]
        obtain ⟨hFew, hMany⟩ := @ih { s₁ with text := itemsText (item' :: items) ++ rest } fuel
          (by omega) (List.cons_ne_nil _ _) ⟨hAdds.fits.lens, hAdds.fits.tmp⟩ rfl
        rw [readStrings_next fuel hRun hNext]
        refine ⟨fun hSum => ?_, fun hSum => hMany ?_⟩
        · obtain ⟨s₂, hRest, hAdds', hEnd⟩ := hFew (by simp only [hLength]; omega)
          refine ⟨s₂, hRest, ⟨hAdds'.fits, ?_, ?_⟩, hEnd⟩
          · rw [hAdds'.lengths]
            simp [hAdds.lengths]
          · rw [hAdds'.bytes]
            simp [hAdds.bytes]
        · simp only [hLength]
          omega
      · refine ⟨fun hSum => ?_, fun _ => readStrings_error fuel (hFull hEnd)⟩
        rw [List.length_cons] at hSum
        omega

theorem jsonReadAllocStringArray_bracket (lens : LenBuf) (b : TmpBuf) {text tail : Text} {c : UInt8}
    (hText : text.dropWhile isSpace = 91 :: rest) (hRest : rest.dropWhile isSpace = c :: tail)
    (hc : c ≠ 93) :
    jsonReadAllocStringArray lens b text =
      readStrings (tail.length + 2) ⟨lens, [], b.reset, c :: tail⟩ >>= ArrayState.finish := by
  unfold jsonReadAllocStringArray
  rw [hText]
  simp only [hRest]
  split
  · rename_i hBracket
    exact absurd (List.cons.inj hBracket).1 hc
  · rfl

theorem length_itemsText (items : List Item) : items.length ≤ (itemsText items).length := by
  induction items with
  | nil => exact Nat.zero_le _
  | cons item items ih =>
    cases items with
    | nil => simp [itemsText_single]
    | cons item' items =>
      simp only [itemsText_cons, List.length_append, List.length_cons] at ih ⊢
      omega

/-- An element does not begin with a bracket. -/
theorem Item.head (item : Item) : ∃ c tail, item.text.dropWhile isSpace = c :: tail ∧ c ≠ 93 := by
  obtain ⟨rest, hItem, -⟩ := item.hDenotes []
  rw [List.append_nil] at hItem
  rcases readItem_cases hItem with ⟨hText, -⟩ | ⟨tail, w, hText, -⟩
  · exact ⟨_, _, hText, by decide⟩
  · exact ⟨_, _, hText, by decide⟩

theorem itemsText_head (hSome : items ≠ []) :
    ∃ c tail, (itemsText items ++ rest).dropWhile isSpace = c :: tail ∧ c ≠ 93 ∧
      items.length ≤ tail.length + 2 := by
  cases items with
  | nil => exact absurd rfl hSome
  | cons item items =>
    obtain ⟨c, tail, hHead, hc⟩ := item.head
    obtain ⟨more, hMore, hLength⟩ : ∃ more, itemsText (item :: items) ++ rest = item.text ++ more ∧
        items.length ≤ more.length := by
      cases items with
      | nil => exact ⟨93 :: rest, by simp [itemsText_single], Nat.zero_le _⟩
      | cons item' items =>
        have hLe := length_itemsText (item' :: items)
        refine ⟨44 :: (itemsText (item' :: items) ++ rest), by simp [itemsText_cons], ?_⟩
        simp only [List.length_append, List.length_cons] at hLe ⊢
        omega
    refine ⟨c, tail ++ more, ?_, hc, ?_⟩
    · rw [hMore, List.dropWhile_append, hHead]
      rfl
    · rw [List.length_cons, List.length_append]
      omega

/-- An array of strings, as long as its elements can be counted. -/
theorem jsonReadAllocStringArray_items (lens : LenBuf) (b : TmpBuf) (hSome : items ≠ []) :
    (items.length ≤ 2 ^ 31 → ∃ a s', jsonReadAllocStringArray lens b
    (arrayText (items.map Item.text) ++ rest) =
      .ok (some a, s') ∧ s'.text = rest ∧ a.str = items.flatMap Item.bytes ++ [0] ∧
        a.arr = stringStarts 0 (items.map Item.len)) ∧
    (2 ^ 31 < items.length →
      jsonReadAllocStringArray lens b (arrayText (items.map Item.text) ++ rest) =
        .error .fault) := by
  obtain ⟨c, tail, hHead, hc, hFuel⟩ := @itemsText_head items rest hSome
  have hText :
    (arrayText (items.map Item.text) ++ rest).dropWhile isSpace = 91 ::
    (itemsText items ++ rest) := rfl
  rw [jsonReadAllocStringArray_bracket lens b hText hHead hc]
  have hTail : (c :: tail).dropWhile isSpace = (itemsText items ++ rest).dropWhile isSpace := by
    rw [← hHead]
    exact dropWhile_dropWhile _
  obtain ⟨hFew, hMany⟩ := @readStrings_items ⟨lens, [], b.reset, c :: tail⟩ items rest
    (tail.length + 2) hFuel hSome ⟨Nat.zero_le _, fits_reset b⟩ hTail
  rw [List.length_nil, Nat.zero_add] at hFew hMany
  refine ⟨fun h => ?_, fun h => ?_⟩
  · obtain ⟨s', hRun, hAdds, hNext⟩ := hFew h
    obtain ⟨tmp, hAdd, hBytes, -⟩ := hAdds.fits.tmp.add 0
    refine ⟨⟨tmp.bytes, stringStarts 0 s'.lengths⟩, { s' with tmp }, ?_, hNext, ?_, ?_⟩
    · rw [hRun]
      show s'.finish = _
      rw [ArrayState.finish, hAdd]
      rfl
    · show tmp.bytes = _
      rw [hBytes, hAdds.bytes]
      rfl
    · show stringStarts 0 s'.lengths = _
      rw [hAdds.lengths]
      rfl
  · rw [hMany h]
    rfl

/-- Where the strings of an array begin. -/
theorem stringStarts_prefix (before after : Text) (items : List Item) {i : Nat}
    (hItem : items[i]? = some item) :
    ∃ k, (stringStarts before.length (items.map Item.len))[i]? = some k ∧
      item.bytes <+: (before ++ (items.flatMap Item.bytes ++ after)).drop k := by
  induction items generalizing before i with
  | nil => simp at hItem
  | cons first items ih =>
    cases i with
    | zero =>
      cases hItem
      refine ⟨before.length, rfl, ?_⟩
      rw [List.drop_left, List.flatMap_cons, List.append_assoc]
      exact List.prefix_append _ _
    | succ i =>
      have hNext := ih (before ++ first.bytes) hItem
      have hLength : (before ++ first.bytes).length = before.length + (first.len + 1) := by
        simp [Item.bytes, Item.len]
      rw [hLength, List.append_assoc] at hNext
      rw [List.flatMap_cons, List.append_assoc]
      exact hNext

end

/-! ## One string -/

section

variable {s rest text : Text} {str : List UInt8}

/-- The texts that the writers make of a string. -/
def Written (s text : Text) : Prop :=
  text = jsonWriteStringLen (some s) ∨ 0 ∉ s ∧ text = jsonWriteString (some s)

theorem Written.eq (h : Written s text) (hs : s.length < 2 ^ 32) :
    text = JsonText.jsonWriteString s := by
  rcases h with rfl | ⟨hZero, rfl⟩
  · exact jsonWriteStringLen_eq hs
  · rw [jsonWriteString, Option.map_some, cString_of_noZero hZero, jsonWriteStringLen_eq hs]

theorem Written.denotes (h : Written s text) (hs : s.length < 2 ^ 32) : Denotes text (some s) := by
  rw [h.eq hs, ← jsonWriteStringLen_eq hs]
  exact denotes_write hs

/-- The strings of an array in memory; `null` is an empty one. -/
def StringArray.Holds (a : StringArray) (values : List (Option Text)) : Prop :=
  a.arr.length = values.length ∧ ∀ (i : Nat) (v : Option Text), values[i]? = some v →
    ∃ k : Nat, a.arr[i]? = some k ∧ v.getD [] ++ [0] <+: a.str.drop k

/-- What every reader makes of a string; in an array, there are elements before and behind it. -/
structure ReadsBack (s text rest : Text) (str : List UInt8) (tmp : TmpBuf) (lens : LenBuf)
    (before after : List Item) : Prop where
  alloc : ∃ tmp', jsonReadAllocString tmp (text ++ rest) = .ok (some (s ++ [0]), tmp', rest)
  array : ∃ a s', jsonReadAllocStringArray lens tmp
      (arrayText (before.map Item.text ++ text :: after.map Item.text) ++ rest) = .ok (some a, s') ∧
    s'.text = rest ∧ a.Holds (before.map Item.value ++ some s :: after.map Item.value)
  fixed : ∃ str',
    jsonReadString str str.length (text ++ rest) = .ok ((s.length : Int), str', rest) ∧
    str'.length = str.length ∧ s.take (str.length - 1) ++ [0] <+: str'

theorem length_stringStarts (j : Nat) (lengths : List Nat) :
    (stringStarts j lengths).length = lengths.length := by
  induction lengths generalizing j with
  | nil => rfl
  | cons len lengths ih => rw [stringStarts, List.length_cons, List.length_cons, ih]

theorem Written.alloc (h : Written s text) (hs : s.length < 2 ^ 32) (tmp : TmpBuf) :
    ∃ tmp', jsonReadAllocString tmp (text ++ rest) = .ok (some (s ++ [0]), tmp', rest) := by
  refine jsonReadAllocString_eq tmp ?_ (readChars_jsonWriteString s rest)
  rw [h.eq hs, JsonText.jsonWriteString, List.cons_append, List.append_assoc]
  rfl

theorem Written.array (h : Written s text) (hs : s.length < 2 ^ 32) (tmp : TmpBuf) (lens : LenBuf)
    (before after : List Item) :
    (before.length + 1 + after.length ≤ 2 ^ 31 → ∃ a s', jsonReadAllocStringArray lens tmp
        (arrayText (before.map Item.text ++ text :: after.map Item.text) ++ rest) =
          .ok (some a, s') ∧
      s'.text = rest ∧ a.Holds (before.map Item.value ++ some s :: after.map Item.value)) ∧
    (2 ^ 31 < before.length + 1 + after.length → jsonReadAllocStringArray lens tmp
      (arrayText (before.map Item.text ++ text :: after.map Item.text) ++ rest) =
        .error .fault) := by
  obtain ⟨items, hItems⟩ : ∃ items, items = before ++ ⟨text, some s, h.denotes hs⟩ :: after :=
    ⟨_, rfl⟩
  have hTexts : before.map Item.text ++ text :: after.map Item.text = items.map Item.text := by
    simp [hItems]
  have hValues :
    before.map Item.value ++ some s :: after.map Item.value = items.map Item.value := by
    simp [hItems]
  have hLength : items.length = before.length + 1 + after.length := by
    simp [hItems]
    omega
  obtain ⟨hFew, hMany⟩ := @jsonReadAllocStringArray_items items rest lens tmp (by simp [hItems])
  rw [hTexts, hValues, ← hLength]
  refine ⟨fun hLe => ?_, hMany⟩
  obtain ⟨a, s', hRun, hText, hStr, hArr⟩ := hFew hLe
  refine ⟨a, s', hRun, hText, ?_, ?_⟩
  · rw [hArr, length_stringStarts, List.length_map, List.length_map]
  · intro i v hv
    rw [List.getElem?_map] at hv
    obtain ⟨item, hItem, rfl⟩ := Option.map_eq_some_iff.1 hv
    obtain ⟨k, hk, hPrefix⟩ := stringStarts_prefix [] [0] items hItem
    refine ⟨k, by rw [hArr]; exact hk, ?_⟩
    rw [hStr]
    exact hPrefix

theorem Written.fixed (h : Written s text) (hs : s.length < 2 ^ 31) (hStr : str ≠ [])
    (hSize : str.length < 2 ^ 64) :
    ∃ str', jsonReadString str str.length (text ++ rest) = .ok ((s.length : Int), str', rest) ∧
      str'.length = str.length ∧ s.take (str.length - 1) ++ [0] <+: str' := by
  have hChars := readChars_jsonWriteString s rest
  have hPos : 0 < str.length := List.length_pos_iff.2 hStr
  have hEmpty : StrBuf.Holds str.length [] ⟨str, 0⟩ := ⟨rfl, rfl, by simp⟩
  obtain ⟨b, hFold, hHolds⟩ := hEmpty.foldlM hPos hSize (w := s) (by
    rw [List.length_nil]
    omega)
  rw [List.nil_append] at hHolds
  have hIndex := hHolds.index
  obtain ⟨str', hStore, hPrefix, hLength⟩ := storeAt_prefix hHolds.stored (by
    rw [hHolds.length, List.length_take]
    omega) 0
  have hDrop :
    (text ++ rest).dropWhile isSpace = 34 :: (s.flatMap jsonWriteChar ++ 34 :: rest) := by
    rw [h.eq (by omega), JsonText.jsonWriteString, List.cons_append, List.append_assoc]
    rfl
  refine ⟨str', ?_, hLength.trans hHolds.length, hPrefix⟩
  unfold jsonReadString
  rw [hDrop]
  simp only [readLiteral_eq _ hChars, hFold]
  have hLast : b.terminate str.length = .ok str' := by
    rw [StrBuf.terminate, ← hStore, List.length_take, hIndex, sizeLast_eq hPos hSize]
    split
    · rw [Nat.min_eq_right (by omega)]
    · rw [Nat.min_eq_left (by omega)]
  show (b.terminate str.length >>= fun str => Except.ok (Int.bmod b.i (2 ^ 32), str, rest)) = _
  rw [hLast]
  show Except.ok (Int.bmod b.i (2 ^ 32), str', rest) = _
  rw [hIndex, Int.bmod_eq_of_le (by omega) (by omega)]

/-- The value of `json_read_string` is an `int`. -/
theorem jsonReadString_lt {str' : List UInt8} {size : Nat} {n : Int}
    (h : jsonReadString str size text = .ok (n, str', rest)) : n < 2 ^ 31 := by
  unfold jsonReadString at h
  split at h
  · rename_i tail hText
    cases hNull : readNull tail with
    | error e => simp [hNull, bind, Except.bind] at h
    | ok rest' =>
      cases hStore : storeAt str 0 0 with
      | error e => simp [hNull, hStore, bind, Except.bind] at h
      | ok str'' =>
        simp only [hNull, hStore] at h
        cases h
        decide
  · rename_i tail hText
    cases hRead : readLiteral (StrBuf.put size) (tail.length + 1) ⟨str, 0⟩ tail with
    | error e => simp [hRead, bind, Except.bind] at h
    | ok r =>
      cases hLast : r.1.terminate size with
      | error e => simp [hRead, hLast, bind, Except.bind] at h
      | ok str'' =>
        simp only [hRead] at h
        have hSame : (Except.ok ((Int.bmod r.1.i (2 ^ 32), str'', r.2) : Int × List UInt8 × Text) :
            Result (Int × List UInt8 × Text)) = .ok (n, str', rest) := by
          rw [← h]
          show _ = (r.1.terminate size >>= fun str => Except.ok (Int.bmod r.1.i (2 ^ 32), str, r.2))
          rw [hLast]
          rfl
        obtain ⟨hn, -⟩ := Prod.mk.inj (Except.ok.inj hSame)
        rw [← hn]
        exact Int.bmod_lt (by decide)
  · cases h

/-- A string is read back by every reader exactly where its length is an `int` and the lengths of
the elements have room. -/
theorem strings_read_back (s text rest : Text) (hText : Written s text) (str : List UInt8)
    (hStr : str ≠ []) (hSize : str.length < 2 ^ 64) (tmp : TmpBuf) (lens : LenBuf)
    (before after : List Item) :
    ReadsBack s text rest str tmp lens before after ↔
      s.length < 2 ^ 31 ∧ before.length + 1 + after.length ≤ 2 ^ 31 := by
  constructor
  · intro h
    have hShort : s.length < 2 ^ 31 := by
      obtain ⟨str', hRun, -⟩ := h.fixed
      have := jsonReadString_lt hRun
      omega
    refine ⟨hShort, ?_⟩
    by_contra hMany
    obtain ⟨a, s', hRun, -⟩ := h.array
    have hFault := (@Written.array s rest text hText (by omega) tmp lens before after).2 (by omega)
    rw [hFault] at hRun
    cases hRun
  · rintro ⟨hShort, hFew⟩
    have hs : s.length < 2 ^ 32 := by omega
    exact ⟨hText.alloc hs tmp, (hText.array hs tmp lens before after).1 hFew,
      hText.fixed hShort hStr hSize⟩

end

/-- `null` as an element. -/
def nullItem : Item := ⟨ascii "null", none, denotes_null⟩

/-- The end of a line behind `null`, and in a buffer of three bytes. -/
theorem strings_read_back_two :
    ReadsBack [97, 10] [34, 97, 92, 110, 34] [0] [1, 2, 3] ⟨0, []⟩ ⟨0, Or.inl rfl⟩ [nullItem] [] :=
  (strings_read_back [97, 10] [34, 97, 92, 110, 34] [0] (Or.inl (by decide)) [1, 2, 3] (by decide)
    (by decide) ⟨0, []⟩ ⟨0, Or.inl rfl⟩ [nullItem] []).2 ⟨by decide, by decide⟩

/-- The length of a string of 2 GB is no `int`. -/
theorem not_strings_read_back : ¬ ∀ s text rest : Text, Written s text → ∀ str : List UInt8,
    str ≠ [] → str.length < 2 ^ 64 → ∀ (tmp : TmpBuf) (lens : LenBuf) (before after : List Item),
      ReadsBack s text rest str tmp lens before after := by
  intro hAll
  obtain ⟨s, hs⟩ : ∃ s : Text, s.length = 2 ^ 31 :=
    ⟨List.replicate (2 ^ 31) 97, List.length_replicate⟩
  obtain ⟨str', hRun, -⟩ := (hAll s _ [] (Or.inl rfl) [0] (by decide) (by decide) ⟨0, []⟩
    ⟨0, Or.inl rfl⟩ [] []).fixed
  have hLt := jsonReadString_lt hRun
  omega

end TcfAgent.JsonBuffers
