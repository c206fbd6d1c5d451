import TcfAgent.Services.ContextQuery

/-!
# The grammar of context queries

A query is a sequence of items. Behind each item but the last stands a `/`, which begins a new
part, or a `,`, which goes on with the list; the parser also goes on where nothing stands behind
a closing quote.

Main results:

* `parseItem_text`   — an item is read, up to what may stand behind it;
* `parseItem_sound`  — nothing else is read as an item;
* `parseItem_number` — a value that starts with a digit and is no number is refused.
-/

namespace TcfAgent.ContextQuery

open TcfAgent.JsonText (Text isDigit ascii)

/-! ## Strings -/

/-- A character of a quoted string: any one but the quote and the backslash, or one of these
behind a backslash. -/
inductive QuotedChar where
  | plain (c : UInt8) (h : c ≠ 34 ∧ c ≠ 92)
  | escaped (c : UInt8) (h : c = 92 ∨ c = 34)

namespace QuotedChar

def text : QuotedChar → Text
  | .plain c _ => [c]
  | .escaped c _ => [92, c]

def char : QuotedChar → UInt8
  | .plain c _ => c
  | .escaped c _ => c

end QuotedChar

/-- Letters, digits and `_`, in any order. -/
abbrev Symbol := { s : Text // s ≠ [] ∧ ∀ c ∈ s, isSymbolChar c = true }

/-- A string of a query: bare, or in quotes. -/
inductive Str where
  | symbol (s : Symbol)
  | quoted (cs : List QuotedChar)

namespace Str

def text : Str → Text
  | .symbol s => s.1
  | .quoted cs => 34 :: (cs.flatMap QuotedChar.text ++ [34])

/-- The string with its escapes resolved. -/
def value : Str → Text
  | .symbol s => s.1
  | .quoted cs => cs.map QuotedChar.char

def IsQuoted : Str → Prop
  | .symbol _ => False
  | .quoted _ => True

/-- A value that starts with a digit is a number. -/
def Plain : Str → Prop
  | .symbol s => (∀ c ∈ s.1.head?, isDigit c = true) → ∀ c ∈ s.1, isDigit c = true
  | .quoted _ => True

end Str

/-! ## Items -/

/-- A part of a query. -/
inductive Item where
  | string (s : Str)
  | property (name value : Str)
  | star
  | starStar

namespace Item

def text : Item → Text
  | .string s => s.text
  | .property name value => name.text ++ 61 :: value.text
  | .star => [42]
  | .starStar => [42, 42]

def attr : Item → Attribute
  | .string s => ⟨none, s.value⟩
  | .property name value => ⟨some name.value, value.value⟩
  | .star => ⟨none, [42]⟩
  | .starStar => ⟨none, [42, 42]⟩

def IsWildcard : Item → Prop
  | .star => True
  | .starStar => True
  | _ => False

def EndsInQuote : Item → Prop
  | .string s => s.IsQuoted
  | .property _ value => value.IsQuoted
  | _ => False

/-- A value that starts with a digit is a number. -/
def Plain : Item → Prop
  | .property _ value => value.Plain
  | _ => True

/-- The sub-parser that reads the item has nothing against what stands behind it. -/
def Stops (i : Item) (rest : Text) : Prop :=
  (i.IsWildcard → follows [47] rest = true) ∧
    (¬ i.IsWildcard → ¬ i.EndsInQuote → follows [47, 44] rest = true) ∧ rest.head? ≠ some 61

end Item

/-! ## Queries -/

/-- What stands behind an item. `nothing` is not in the grammar. -/
inductive Sep where
  | slash
  | comma
  | nothing

def Sep.text : Sep → Text
  | .slash => [47]
  | .comma => [44]
  | .nothing => []

/-- The parts of a query with their separators. -/
inductive Items where
  | last (i : Item)
  | more (i : Item) (sep : Sep) (rest : Items)

namespace Items

def text : Items → Text
  | .last i => i.text
  | .more i sep rest => i.text ++ (sep.text ++ rest.text)

/-- The items of each part. -/
def parts : Items → List (List Item)
  | .last i => [[i]]
  | .more i .slash rest => [i] :: rest.parts
  | .more i _ rest => rest.parts.modifyHead (i :: ·)

/-- A wildcard is the last item of its part, and nothing is missing but behind a closing quote. -/
def Valid : Items → Prop
  | .last _ => True
  | .more _ .slash rest => rest.Valid
  | .more i .comma rest => ¬ i.IsWildcard ∧ rest.Valid
  | .more i .nothing rest => i.EndsInQuote ∧ rest.Valid

/-- A delimiter stands behind each item but the last. -/
def Joined : Items → Prop
  | .last _ => True
  | .more _ .nothing _ => False
  | .more _ _ rest => rest.Joined

/-- The values that start with a digit are numbers. -/
def Plain : Items → Prop
  | .last i => i.Plain
  | .more i _ rest => i.Plain ∧ rest.Plain

end Items

/-- A query of the grammar. -/
structure Derivation where
  absolute : Bool
  items    : Items
  valid    : items.Valid
  joined   : items.Joined

/-- The leading `/`. -/
def lead (absolute : Bool) : Text := if absolute then [47] else []

namespace Derivation

def text (d : Derivation) : Text := lead d.absolute ++ d.items.text

/-- The attribute lists of the parts. -/
def attributes (d : Derivation) : List (List Attribute) :=
  d.items.parts.map (List.map Item.attr)

end Derivation

/-- The attribute lists, in the order of the text. -/
def Query.attributes (q : Query) : List (List Attribute) := (q.attrs.map List.reverse).reverse

/-! ## The first character -/

section

variable {cs : List UInt8} {c : UInt8} {q rest : Text}

@[simp] theorem follows_nil : follows cs [] = true := rfl

@[simp] theorem follows_cons : follows cs (c :: q) = cs.contains c := rfl

theorem isSymbolChar_of_isDigit (h : isDigit c = true) : isSymbolChar c = true := by
  simp [isSymbolChar, h]

/-- A character of a symbol, as a number. -/
theorem isSymbolChar_toNat (h : isSymbolChar c = true) :
    c.toNat = 95 ∨ (48 ≤ c.toNat ∧ c.toNat ≤ 57) ∨ (97 ≤ c.toNat ∧ c.toNat ≤ 122) ∨
      (65 ≤ c.toNat ∧ c.toNat ≤ 90) := by
  simp only [isSymbolChar, isDigit, Bool.or_eq_true, Bool.and_eq_true, decide_eq_true_eq,
    UInt8.le_iff_toNat_le, UInt8.toNat_ofNat, ← UInt8.toNat_inj] at h
  omega

/-- A symbol has none of the characters the parser looks for. -/
theorem isSymbolChar_ne (h : isSymbolChar c = true) :
    c ≠ 47 ∧ c ≠ 61 ∧ c ≠ 44 ∧ c ≠ 34 ∧ c ≠ 42 ∧ c ≠ 92 := by
  have hNat := isSymbolChar_toNat h
  refine ⟨?_, ?_, ?_, ?_, ?_, ?_⟩ <;>
  · rintro rfl
    revert hNat
    decide

theorem Str.text_head (s : Str) (rest : Text) :
    missing (s.text ++ rest) = false ∧ (s.text ++ rest).head? ≠ some 42 := by
  obtain ⟨t, hNe, hChars⟩ | cs := s
  · obtain ⟨c, t, rfl⟩ := List.exists_cons_of_ne_nil hNe
    have hc := isSymbolChar_ne (hChars c List.mem_cons_self)
    simp [Str.text, missing, hc]
  · simp [Str.text, missing]

/-- An item starts with nothing that ends one. -/
theorem Item.text_head (i : Item) (rest : Text) : missing (i.text ++ rest) = false := by
  cases i with
  | string s => exact (s.text_head rest).1
  | property name value =>
    rw [Item.text, List.append_assoc]
    exact (name.text_head _).1
  | star => rfl
  | starStar => rfl

theorem Items.text_head (items : Items) (rest : Text) : missing (items.text ++ rest) = false := by
  cases items with
  | last i => exact i.text_head rest
  | more i sep items =>
    rw [Items.text, List.append_assoc]
    exact i.text_head _

end

/-! ## Reading strings -/

section

variable {c : UInt8} {s q rest : Text} {p : UInt8 → Bool}

/-- A run of characters of a kind is read up to the first one of another kind. -/
theorem span_stop (hs : ∀ c ∈ s, p c = true)
    (hRest : ∀ c ∈ rest.head?, p c = false) :
    (s ++ rest).takeWhile p = s ∧ (s ++ rest).dropWhile p = rest := by
  rw [List.takeWhile_append_of_pos hs, List.dropWhile_append_of_pos hs]
  cases rest with
  | nil => simp
  | cons c rest =>
    have hc : p c = false := hRest c rfl
    simp [hc]

/-- The run ends before a character of another kind. -/
theorem dropWhile_stop (rest : Text) (hMem : c ∈ s) (hc : p c = false) :
    ∃ e tail, (s ++ rest).dropWhile p = e :: tail ∧ e ∈ s := by
  induction s with
  | nil => cases hMem
  | cons d s ih =>
    by_cases hd : p d = true
    · have hMem' : c ∈ s := by
        rcases List.mem_cons.1 hMem with rfl | hMem
        · rw [hc] at hd
          cases hd
        · exact hMem
      obtain ⟨e, tail, hDrop, he⟩ := ih hMem'
      exact ⟨e, tail, by simpa [hd] using hDrop, List.mem_cons_of_mem d he⟩
    · exact ⟨d, s ++ rest, by simp [hd], List.mem_cons_self⟩

/-- Where one of the delimiters follows, no symbol goes on. -/
theorem stop_of_follows {cs : List UInt8} (hcs : ∀ c ∈ cs, p c = false)
    (h : follows cs rest = true) : ∀ c ∈ rest.head?, p c = false := by
  intro c hc
  cases rest with
  | nil => cases hc
  | cons d rest =>
    obtain rfl : d = c := by simpa using hc
    exact hcs d (List.elem_iff.1 h)

theorem follows_mono {b d : List UInt8} (hSub : ∀ c ∈ b, c ∈ d) (h : follows b rest = true) :
    follows d rest = true := by
  cases rest with
  | nil => rfl
  | cons c rest => exact List.elem_iff.2 (hSub c (List.elem_iff.1 h))

theorem parseSymbol_text (t : Symbol) (h : missing rest = true) :
    parseSymbol (t.1 ++ rest) = .ok (t.1, rest) := by
  have hStop := stop_of_follows (p := isSymbolChar) (by simp [isSymbolChar, isDigit]) h
  obtain ⟨hTake, hDrop⟩ := span_stop t.2.2 hStop
  rw [parseSymbol, hTake, hDrop, if_pos h]

theorem parseNumber_text (ht : ∀ c ∈ s, isDigit c = true) (h : follows [44, 47] rest = true) :
    parseNumber (s ++ rest) = .ok (s, rest) := by
  have hStop := stop_of_follows (p := isDigit) (by simp [isDigit]) h
  obtain ⟨hTake, hDrop⟩ := span_stop ht hStop
  rw [parseNumber, hTake, hDrop, if_pos h]

@[simp] theorem parseQuotedString_quote : parseQuotedString (34 :: q) = .ok ([], q) := by
  cases q <;> simp [parseQuotedString]

@[simp] theorem parseQuotedString_escape (h : c = 92 ∨ c = 34) :
    parseQuotedString (92 :: c :: q) = addChar c (parseQuotedString q) := by
  simp [parseQuotedString, h]

theorem parseQuotedString_plain (h : c ≠ 34 ∧ c ≠ 92) :
    parseQuotedString (c :: q) = addChar c (parseQuotedString q) := by
  cases q <;> simp [parseQuotedString, addChar, h]

theorem parseQuotedString_text (cs : List QuotedChar) (rest : Text) :
    parseQuotedString (cs.flatMap QuotedChar.text ++ 34 :: rest) =
      .ok (cs.map QuotedChar.char, rest) := by
  induction cs with
  | nil => exact parseQuotedString_quote
  | cons qc cs ih =>
    obtain ⟨c, hc⟩ | ⟨c, hc⟩ := qc
    · simp only [List.flatMap_cons, QuotedChar.text, List.cons_append, List.nil_append,
        parseQuotedString_plain hc, ih, addChar, List.map_cons, QuotedChar.char]
    · simp only [List.flatMap_cons, QuotedChar.text, List.cons_append, List.nil_append,
        parseQuotedString_escape hc, ih, addChar, List.map_cons, QuotedChar.char]

theorem addChar_ok {r : Reading Text} :
    addChar c r = .ok (s, rest) ↔ ∃ t, r = .ok (t, rest) ∧ c :: t = s := by
  rcases r with e | ⟨t, rest'⟩
  · simp [addChar]
  · simp only [addChar, Except.ok.injEq, Prod.mk.injEq]
    constructor
    · rintro ⟨hs, rfl⟩
      exact ⟨t, ⟨rfl, rfl⟩, hs⟩
    · rintro ⟨t', ⟨rfl, rfl⟩, hs⟩
      exact ⟨hs, rfl⟩

/-- Nothing but quoted characters is read. -/
theorem parseQuotedString_sound (h : parseQuotedString q = .ok (s, rest)) :
    ∃ cs : List QuotedChar, q = cs.flatMap QuotedChar.text ++ 34 :: rest ∧
      cs.map QuotedChar.char = s := by
  fun_induction parseQuotedString q generalizing s with
  | case1 => cases h
  | case2 =>
    cases h
    exact ⟨[], rfl, rfl⟩
  | case3 => cases h
  | case4 => cases h
  | case5 d c =>
    cases h
    exact ⟨[], rfl, rfl⟩
  | case6 d c hd hQuote ih =>
    obtain ⟨t, ht, rfl⟩ := addChar_ok.1 h
    obtain ⟨cs, rfl, rfl⟩ := ih ht
    exact ⟨.escaped d hd :: cs, rfl, rfl⟩
  | case7 => cases h
  | case8 ch d c hQuote hEscape ih =>
    obtain ⟨t, ht, rfl⟩ := addChar_ok.1 h
    obtain ⟨cs, hText, rfl⟩ := ih ht
    refine ⟨.plain ch ⟨hQuote, hEscape⟩ :: cs, ?_, rfl⟩
    rw [hText]
    rfl

theorem parseSymbol_sound (hStart : missing q = false) (h : parseSymbol q = .ok (s, rest)) :
    ∃ t : Symbol, q = t.1 ++ rest ∧ t.1 = s ∧ missing rest = true := by
  unfold parseSymbol at h
  split at h
  · next hFollow =>
    cases h
    have hNe : q.takeWhile isSymbolChar ≠ [] := by
      intro hNil
      have hAll := List.takeWhile_append_dropWhile (p := isSymbolChar) (l := q)
      rw [hNil, List.nil_append] at hAll
      rw [hAll] at hFollow
      rw [missing, hFollow] at hStart
      cases hStart
    exact ⟨⟨_, hNe, fun c hc => List.mem_takeWhile_imp hc⟩,
      (List.takeWhile_append_dropWhile).symm, rfl, hFollow⟩
  · cases h

end

/-! ## Reading items -/

section

variable {q rest s : Text} {a : Attribute}

theorem parseString_text (t : Str) (rest : Text) (h : ¬ t.IsQuoted → missing rest = true) :
    parseString (t.text ++ rest) = .ok (t.value, rest) := by
  cases t with
  | symbol t =>
    obtain ⟨c, u, hText⟩ := List.exists_cons_of_ne_nil t.2.1
    have hc : c ≠ 34 := (isSymbolChar_ne (t.2.2 c (by simp [hText]))).2.2.2.1
    have hRead := parseSymbol_text t (h id)
    rw [hText] at hRead
    simpa [Str.text, hText, parseString, hc, Str.value] using hRead
  | quoted cs =>
    have hRead := parseQuotedString_text cs rest
    simpa [Str.text, parseString, Str.value] using hRead

theorem parseString_sound (hStart : missing q = false) (h : parseString q = .ok (s, rest)) :
    ∃ t : Str, q = t.text ++ rest ∧ t.value = s ∧ (¬ t.IsQuoted → missing rest = true) := by
  unfold parseString at h
  split at h
  · next c =>
    obtain ⟨cs, rfl, hs⟩ := parseQuotedString_sound h
    exact ⟨.quoted cs, by simp [Str.text], hs, fun hQuoted => absurd trivial hQuoted⟩
  · obtain ⟨t, hText, hs, hFollow⟩ := parseSymbol_sound hStart h
    exact ⟨.symbol t, hText, hs, fun _ => hFollow⟩

theorem parseValue_cons (c : UInt8) (q : Text) :
    parseValue (c :: q) = if isDigit c then parseNumber (c :: q) else if c = 34 then
      parseQuotedString q else parseSymbol (c :: q) := rfl

/-- Every delimiter but the `=`. -/
theorem follows_of_missing (h : missing rest = true) (hNe : rest.head? ≠ some 61) :
    follows [47, 44] rest = true := by
  cases rest with
  | nil => rfl
  | cons c rest =>
    have hc : c ≠ 61 := by simpa using hNe
    simpa [missing, hc] using h

theorem parseValue_text (v : Str) (rest : Text) (hPlain : v.Plain)
    (h : ¬ v.IsQuoted → follows [47, 44] rest = true) :
    parseValue (v.text ++ rest) = .ok (v.value, rest) := by
  cases v with
  | symbol t =>
    obtain ⟨c, u, hText⟩ := List.exists_cons_of_ne_nil t.2.1
    have hc : c ≠ 34 := (isSymbolChar_ne (t.2.2 c (by simp [hText]))).2.2.2.1
    by_cases hDigit : isDigit c = true
    · have hDigits : ∀ d ∈ t.1, isDigit d = true := hPlain (by simp [hText, hDigit])
      have hRead := parseNumber_text hDigits (follows_mono (d := [44, 47]) (by simp) (h id))
      rw [hText] at hRead
      simpa [Str.text, hText, parseValue, hDigit, Str.value] using hRead
    · have hRead := parseSymbol_text t (follows_mono (d := [47, 61, 44]) (by simp) (h id))
      rw [hText] at hRead
      simpa [Str.text, hText, parseValue, hDigit, hc, Str.value] using hRead
  | quoted cs =>
    have hRead := parseQuotedString_text cs rest
    have hDigit : isDigit 34 = false := by simp [isDigit]
    simpa [Str.text, parseValue, hDigit, Str.value] using hRead

/-- A value that starts with a digit and goes on with something else is refused. -/
theorem parseValue_number (v : Str) (rest : Text) (hPlain : ¬ v.Plain) :
    parseValue (v.text ++ rest) = .error .number := by
  cases v with
  | symbol t =>
    obtain ⟨hDigit, d, hd, hNot⟩ : (∀ c ∈ t.1.head?, isDigit c = true) ∧
        ∃ d ∈ t.1, isDigit d ≠ true := by
      simpa only [Str.Plain, Classical.not_imp, not_forall, exists_prop] using hPlain
    obtain ⟨c, u, hText⟩ := List.exists_cons_of_ne_nil t.2.1
    have hc : isDigit c = true := hDigit c (by simp [hText])
    obtain ⟨e, tail, hDrop, he⟩ := dropWhile_stop rest hd (by simpa using hNot)
    have hFollow : follows [44, 47] (e :: tail) = false := by
      have hSymbol := isSymbolChar_ne (t.2.2 e he)
      simp [hSymbol]
    rw [Str.text, hText, List.cons_append, parseValue_cons, if_pos hc, ← List.cons_append,
      ← hText, parseNumber, hDrop, if_neg (by rw [hFollow]; exact Bool.false_ne_true)]
  | quoted cs => exact absurd trivial hPlain

theorem parseValue_sound (hStart : missing q = false) (h : parseValue q = .ok (s, rest)) :
    ∃ v : Str, q = v.text ++ rest ∧ v.value = s ∧ v.Plain ∧
      (¬ v.IsQuoted → missing rest = true) := by
  cases q with
  | nil => cases hStart
  | cons c q =>
    rw [parseValue_cons] at h
    split at h
    · next hDigit =>
      unfold parseNumber at h
      split at h
      · next hFollow =>
        cases h
        have hTake : (c :: q).takeWhile isDigit ≠ [] := by simp [hDigit]
        have hDigits : ∀ d ∈ (c :: q).takeWhile isDigit, isDigit d = true :=
          fun d hd => List.mem_takeWhile_imp hd
        exact ⟨.symbol ⟨_, hTake, fun d hd => isSymbolChar_of_isDigit (hDigits d hd)⟩,
          (List.takeWhile_append_dropWhile).symm, rfl, fun _ => hDigits,
          fun _ => follows_mono (by simp) hFollow⟩
      · cases h
    · next hDigit =>
      split at h
      · next hQuote =>
        obtain ⟨cs, hText, hs⟩ := parseQuotedString_sound h
        exact ⟨.quoted cs, by simp [Str.text, hQuote, hText], hs, trivial,
          fun hQuoted => absurd trivial hQuoted⟩
      · obtain ⟨t, hText, hs, hFollow⟩ := parseSymbol_sound hStart h
        refine ⟨.symbol t, hText, hs, fun hHead => ?_, fun _ => hFollow⟩
        obtain ⟨d, u, ht⟩ := List.exists_cons_of_ne_nil t.2.1
        rw [ht, List.cons_append] at hText
        cases hText
        exact absurd (hHead c (by simp [ht])) hDigit

theorem parseProperty_alone (h : parseString q = .ok (s, rest)) (hNe : rest.head? ≠ some 61) :
    parseProperty q = .ok (⟨none, s⟩, rest) := by
  rw [parseProperty, h]
  cases rest with
  | nil => rfl
  | cons c rest =>
    have hc : c ≠ 61 := by simpa using hNe
    simp [hc]

theorem parseProperty_assigned (h : parseString q = .ok (s, 61 :: rest)) :
    parseProperty q = parseAssigned s rest := by
  simp only [parseProperty, h]

variable (i : Item)

theorem parseProperty_text (hItem : ¬ i.IsWildcard) (hPlain : i.Plain)
    (h : i.Stops rest) : parseProperty (i.text ++ rest) = .ok (i.attr, rest) := by
  obtain ⟨-, hBare, hNe⟩ := h
  cases i with
  | string t =>
    have hRead := parseString_text t rest fun hQuoted =>
      follows_mono (by simp) (hBare hItem hQuoted)
    exact parseProperty_alone hRead hNe
  | property name value =>
    have hName := parseString_text name (61 :: (value.text ++ rest)) fun _ => rfl
    have hValue := parseValue_text value rest hPlain (hBare hItem)
    have hStart : missing (value.text ++ rest) = false := (value.text_head rest).1
    rw [Item.text, List.append_assoc, List.cons_append, parseProperty_assigned hName]
    simp only [parseAssigned, hStart, hValue, hNe, if_false, Bool.false_eq_true]
    rfl
  | star => exact absurd trivial hItem
  | starStar => exact absurd trivial hItem

theorem parseProperty_number (rest : Text) (hPlain : ¬ i.Plain) :
    parseProperty (i.text ++ rest) = .error .number := by
  cases i with
  | property name value =>
    have hName := parseString_text name (61 :: (value.text ++ rest)) fun _ => rfl
    have hValue := parseValue_number value rest hPlain
    have hStart : missing (value.text ++ rest) = false := (value.text_head rest).1
    rw [Item.text, List.append_assoc, List.cons_append, parseProperty_assigned hName]
    simp only [parseAssigned, hStart, hValue, if_false, Bool.false_eq_true]
  | string t => exact absurd trivial hPlain
  | star => exact absurd trivial hPlain
  | starStar => exact absurd trivial hPlain

theorem parseAssigned_sound {name : Text} (h : parseAssigned name q = .ok (a, rest)) :
    ∃ v : Str, q = v.text ++ rest ∧ a = ⟨some name, v.value⟩ ∧ v.Plain ∧
      (¬ v.IsQuoted → follows [47, 44] rest = true) ∧ rest.head? ≠ some 61 := by
  unfold parseAssigned at h
  split at h
  · cases h
  · next hStart =>
    split at h
    · cases h
    · next s c hValue =>
      split at h
      · cases h
      · next hNe =>
        cases h
        obtain ⟨v, hText, hs, hPlain, hFollow⟩ :=
          parseValue_sound (Bool.eq_false_iff.2 hStart) hValue
        exact ⟨v, hText, by rw [hs], hPlain,
          fun hQuoted => follows_of_missing (hFollow hQuoted) hNe, hNe⟩

/-- What is read as a property is one, or a string. -/
theorem parseProperty_sound (hStart : missing q = false) (h : parseProperty q = .ok (a, rest)) :
    ∃ i : Item, q = i.text ++ rest ∧ i.attr = a ∧ ¬ i.IsWildcard ∧ i.Plain ∧ i.Stops rest := by
  unfold parseProperty at h
  split at h
  · cases h
  · next s c hName =>
    obtain ⟨name, rfl, rfl, -⟩ := parseString_sound hStart hName
    obtain ⟨v, rfl, rfl, hPlain, hFollow, hNe⟩ := parseAssigned_sound h
    exact ⟨.property name v, by simp [Item.text], rfl, id, hPlain, fun hItem => hItem.elim,
      fun _ => hFollow, hNe⟩
  · next s c hNot hName =>
    cases h
    have hNe : rest.head? ≠ some 61 := by
      intro hHead
      obtain ⟨c, rfl⟩ := List.head?_eq_some_iff.1 hHead
      exact hNot _ rfl
    obtain ⟨t, rfl, rfl, hFollow⟩ := parseString_sound hStart hName
    exact ⟨.string t, rfl, rfl, id, trivial, fun hItem => hItem.elim,
      fun _ hQuoted => follows_of_missing (hFollow hQuoted) hNe, hNe⟩

theorem parseWildcard_star (h : follows [47] rest = true) :
    parseWildcard 42 rest = .ok ([42], rest) := by
  cases rest with
  | nil => rfl
  | cons c rest =>
    obtain rfl : c = 47 := by simpa using h
    rfl

theorem parseWildcard_sound (h : parseWildcard 42 q = .ok (s, rest)) :
    ∃ i : Item, 42 :: q = i.text ++ rest ∧ i.attr = ⟨none, s⟩ ∧ i.IsWildcard ∧
      follows [47] rest = true := by
  unfold parseWildcard at h
  split at h
  · split at h
    · next hFollow =>
      cases h
      exact ⟨.starStar, rfl, rfl, trivial, hFollow⟩
    · cases h
  · split at h
    · next hFollow =>
      cases h
      exact ⟨.star, rfl, rfl, trivial, hFollow⟩
    · cases h

theorem follows_ne (h : follows [47] rest = true) : rest.head? ≠ some 61 := by
  cases rest with
  | nil => simp
  | cons c rest =>
    obtain rfl : c = 47 := by simpa using h
    simp

theorem Item.text_ne_star (rest : Text) (hItem : ¬ i.IsWildcard) :
    ∃ c q, i.text ++ rest = c :: q ∧ c ≠ 42 := by
  have hHead : (i.text ++ rest).head? ≠ some 42 ∧ i.text ++ rest ≠ [] := by
    constructor
    · cases i with
      | string t => exact (t.text_head rest).2
      | property name value =>
        rw [Item.text, List.append_assoc]
        exact (name.text_head _).2
      | star => exact absurd trivial hItem
      | starStar => exact absurd trivial hItem
    · intro hNil
      have hMissing := i.text_head rest
      rw [hNil] at hMissing
      cases hMissing
  obtain ⟨c, q, hText⟩ := List.exists_cons_of_ne_nil hHead.2
  exact ⟨c, q, hText, by simpa [hText] using hHead.1⟩

theorem Item.plain_of_isWildcard (hItem : i.IsWildcard) : i.Plain := by
  cases i with
  | string t => exact hItem.elim
  | property name value => exact hItem.elim
  | star => trivial
  | starStar => trivial

theorem parseItem_property {c : UInt8} (hc : c ≠ 42) :
    parseItem (c :: q) = parseProperty (c :: q) := by
  rw [parseItem, if_neg hc]

/-- An item is read, up to what may stand behind it. -/
theorem parseItem_text (hPlain : i.Plain) (h : i.Stops rest) :
    parseItem (i.text ++ rest) = .ok (i.attr, rest) := by
  by_cases hItem : i.IsWildcard
  · have hFollow := h.1 hItem
    cases i with
    | star => simp [Item.text, parseItem, parseWildcard_star hFollow, Item.attr]
    | starStar => simp [Item.text, parseItem, parseWildcard, hFollow, Item.attr]
    | string t => exact hItem.elim
    | property name value => exact hItem.elim
  · have hRead := parseProperty_text i hItem hPlain h
    obtain ⟨c, q, hText, hc⟩ := i.text_ne_star rest hItem
    rw [hText] at hRead ⊢
    rwa [parseItem_property hc]

theorem parseItem_number (rest : Text) (hPlain : ¬ i.Plain) :
    parseItem (i.text ++ rest) = .error .number := by
  have hItem : ¬ i.IsWildcard := fun hItem => hPlain (i.plain_of_isWildcard hItem)
  have hRead := parseProperty_number i rest hPlain
  obtain ⟨c, q, hText, hc⟩ := i.text_ne_star rest hItem
  rw [hText] at hRead ⊢
  rwa [parseItem_property hc]

/-- Nothing else is read as an item. -/
theorem parseItem_sound (hStart : missing q = false) (h : parseItem q = .ok (a, rest)) :
    ∃ i : Item, q = i.text ++ rest ∧ i.attr = a ∧ i.Plain ∧ i.Stops rest := by
  cases q with
  | nil => cases hStart
  | cons c q =>
    by_cases hc : c = 42
    · subst hc
      rw [parseItem, if_pos rfl] at h
      split at h
      · cases h
      · next s c hRead =>
        cases h
        obtain ⟨i, hText, hAttr, hItem, hFollow⟩ := parseWildcard_sound hRead
        exact ⟨i, hText, hAttr, i.plain_of_isWildcard hItem, fun _ => hFollow,
          fun hNot => absurd hItem hNot, follows_ne hFollow⟩
    · rw [parseItem_property hc] at h
      obtain ⟨i, hText, hAttr, -, hPlain, hStops⟩ := parseProperty_sound hStart h
      exact ⟨i, hText, hAttr, hPlain, hStops⟩

end

end TcfAgent.ContextQuery
