import TcfAgent.Services.ExpressionTrees

/-!
# The scanner reads what was written

`next_sy`, on a text in which the symbols stand apart, reads them one after the other; and a
symbol that is scanned once more is the same symbol.

Main results:

* `nextSymbol_token` — a symbol is read, with what follows left;
* `nextSy_written`   — the first symbol of a writing is read;
* `At.next`          — and so is the next one;
* `At.again`         — the symbol at `sy_pos` is read again.
-/

namespace TcfAgent.Expressions

open TcfAgent.JsonText

/-! ## Parts of a text -/

section

variable {p : UInt8 → Bool} {a b rest : Text} {c : UInt8}

/-- Does not go on with a character of the kind. -/
def EndsAt (p : UInt8 → Bool) (t : Text) : Prop := ∀ c ∈ t.head?, p c = false

theorem span_append (ha : ∀ c ∈ a, p c = true) (hb : EndsAt p b) :
    (a ++ b).takeWhile p = a ∧ (a ++ b).dropWhile p = b := by
  rw [List.takeWhile_append_of_pos ha, List.dropWhile_append_of_pos ha]
  cases b with
  | nil => simp
  | cons c b =>
    have hc : p c = false := hb c rfl
    simp [hc]

theorem endsAt_append (ha : ∀ c ∈ a, p c = false) (hb : EndsAt p b) : EndsAt p (a ++ b) := by
  cases a with
  | nil => exact hb
  | cons c a =>
    intro d hd
    cases hd
    exact ha c List.mem_cons_self

theorem Apart.endsAt (h : Apart rest) (hp : ∀ c, isBlank c = true → p c = false) :
    EndsAt p rest := fun c hc => hp c (h c hc)

theorem forall_blank {q : UInt8 → Prop} (h : q 32 ∧ q 13 ∧ q 10 ∧ q 9) (hc : isBlank c = true) :
    q c := by
  obtain ⟨h1, h2, h3, h4⟩ := h
  simp only [isBlank, Bool.or_eq_true, decide_eq_true_eq] at hc
  rcases hc with ((rfl | rfl) | rfl) | rfl
  · exact h1
  · exact h2
  · exact h3
  · exact h4

theorem ifNext_apart {longer : Text → Sy × Text} {short : Sy × Text} (h : Apart rest)
    (hc : isBlank c = false) : ifNext c longer short rest = short := by
  cases rest with
  | nil => rfl
  | cons d rest =>
    have hd : isBlank d = true := h d rfl
    have hNe : d ≠ c := by
      rintro rfl
      rw [hd] at hc
      cases hc
    exact if_neg hNe

@[simp] theorem ifNext_cons (longer : Text → Sy × Text) (short : Sy × Text) (rest : Text) :
    ifNext c longer short (c :: rest) = longer rest := if_pos rfl

@[simp] theorem ifNext_cons_ne {d : UInt8} (longer : Text → Sy × Text) (short : Sy × Text)
    (rest : Text) (h : d ≠ c) : ifNext c longer short (d :: rest) = short := if_neg h

end

/-! ## Literals -/

section

variable {digits suffix rest : Text}

theorem isDigit_digitChar {n : Nat} (h : n < 10) : isDigit (digitChar n) = true := isDigit_ofNat h

theorem isOctDigit_digitChar (d : Fin 8) : isOctDigit (digitChar d) = true := by
  revert d
  decide

theorem isHexDigit_hexChar (d : Fin 16 × Bool) : isHexDigit (hexChar d) = true := by
  obtain ⟨n, b⟩ := d
  revert n b
  decide

theorem suffix_char (s : Suffix) :
    isSuffix s.char = true ∧ isDigit s.char = false ∧ isOctDigit s.char = false ∧
      isHexDigit s.char = false ∧ s.char ∉ ([46, 101, 69, 102, 70] : List UInt8) := by
  cases s <;> decide

/-- The text of a suffix. -/
def IsSuffix (t : Text) : Prop := ∃ suffix : List Suffix, t = suffix.map Suffix.char

/-- A character that goes on with a number. -/
def goesOn (c : UInt8) : Bool :=
  isHexDigit c || isSuffix c || c ∈ ([46, 101, 69, 102, 70] : List UInt8) || c = 120

/-- A number ends here. -/
def Delimited (t : Text) : Prop := EndsAt goesOn t

theorem goesOn_false {c : UInt8} (h : goesOn c = false) :
    isSuffix c = false ∧ isDigit c = false ∧ isOctDigit c = false ∧ isHexDigit c = false ∧
      c ∉ ([46, 101, 69, 102, 70] : List UInt8) ∧ c ≠ 120 := by
  simp only [goesOn, Bool.or_eq_false_iff, decide_eq_false_iff_not] at h
  obtain ⟨⟨⟨hHex, hSuffix⟩, hReal⟩, hx⟩ := h
  have hDigit : isDigit c = false := by
    simp only [isHexDigit, Bool.or_eq_false_iff] at hHex
    exact hHex.1.1
  have hOct : isOctDigit c = false := by
    rw [Bool.eq_false_iff] at hDigit ⊢
    intro hOct
    refine hDigit ?_
    simp only [isOctDigit, isDigit, Bool.and_eq_true, decide_eq_true_eq] at hOct ⊢
    have hLast : (55 : UInt8) ≤ 57 := by decide
    exact ⟨hOct.1, UInt8.le_trans hOct.2 hLast⟩
  exact ⟨hSuffix, hDigit, hOct, hHex, hReal, hx⟩

theorem Delimited.endsAt {p : UInt8 → Bool} (h : Delimited rest)
    (hp : ∀ c, goesOn c = false → p c = false) : EndsAt p rest := fun c hc => hp c (h c hc)

/-- Numbers end at white space. -/
theorem Apart.delimited (h : Apart rest) : Delimited rest :=
  h.endsAt fun _ hc => forall_blank (q := fun c => goesOn c = false) (by decide) hc

/-- After the digits comes a suffix, and then the end of the number. -/
theorem suffix_span (hSuffix : IsSuffix suffix) (hEnds : Delimited rest) :
    (suffix ++ rest).takeWhile isSuffix = suffix ∧ (suffix ++ rest).dropWhile isSuffix = rest := by
  obtain ⟨s, rfl⟩ := hSuffix
  refine span_append (fun c hc => ?_) (hEnds.endsAt fun c hc => (goesOn_false hc).1)
  obtain ⟨x, -, rfl⟩ := List.mem_map.1 hc
  exact (suffix_char x).1

theorem digits_span {p : UInt8 → Bool} (hDigits : ∀ c ∈ digits, p c = true)
    (hSuffix : IsSuffix suffix) (hEnds : Delimited rest) (hs : ∀ s : Suffix, p s.char = false)
    (hb : ∀ c, goesOn c = false → p c = false) :
    (digits ++ (suffix ++ rest)).takeWhile p = digits ∧
      (digits ++ (suffix ++ rest)).dropWhile p = suffix ++ rest := by
  obtain ⟨s, rfl⟩ := hSuffix
  refine span_append hDigits (endsAt_append (fun c hc => ?_) (hEnds.endsAt hb))
  obtain ⟨x, -, rfl⟩ := List.mem_map.1 hc
  exact hs x

theorem isReal_suffix (hSuffix : IsSuffix suffix) (hEnds : Delimited rest) :
    isReal (suffix ++ rest) = false := by
  obtain ⟨s, rfl⟩ := hSuffix
  unfold isReal
  cases s with
  | nil =>
    cases rest with
    | nil => rfl
    | cons c rest =>
      have hc := (goesOn_false (hEnds c rfl)).2.2.2.2.1
      simpa using hc
  | cons s ss =>
    have hs := (suffix_char s).2.2.2.2
    simpa using hs

/-- The end of a text can be left out when it starts with white space. -/
theorem apart_nil : Apart [] := fun c hc => by cases hc

theorem delimited_nil : Delimited [] := apart_nil.delimited

theorem scanDecimal_eq (hDigits : ∀ c ∈ digits, isDigit c = true) (hSuffix : IsSuffix suffix)
    (hEnds : Delimited rest) :
    scanDecimal (digits ++ (suffix ++ rest)) =
      (.val (textVal (if (suffixFlags {} suffix).u then .cardinal else .integer)
        (digitsIn 10 (fun c => c.toNat - 48) digits)) (suffixFlags {} suffix), rest) := by
  obtain ⟨hTake, hDrop⟩ := digits_span hDigits hSuffix hEnds (fun s => (suffix_char s).2.1)
    fun c hc => (goesOn_false hc).2.1
  obtain ⟨hTake', hDrop'⟩ := suffix_span hSuffix hEnds
  simp only [scanDecimal, hTake, hDrop, hTake', hDrop']

theorem scanDecimal_append (hDigits : ∀ c ∈ digits, isDigit c = true) (hSuffix : IsSuffix suffix)
    (hEnds : Delimited rest) :
    scanDecimal (digits ++ (suffix ++ rest)) = ((scanDecimal (digits ++ suffix)).1, rest) := by
  have hNil := scanDecimal_eq hDigits hSuffix delimited_nil
  rw [List.append_nil] at hNil
  rw [scanDecimal_eq hDigits hSuffix hEnds, hNil]

theorem scanZero_hex_eq (hDigits : ∀ c ∈ digits, isHexDigit c = true) (hSuffix : IsSuffix suffix)
    (hEnds : Delimited rest) :
    scanZero (120 :: (digits ++ (suffix ++ rest))) =
      (.val { textVal .cardinal (digitsIn 16 hexValue digits) with
        size := sizeFor (digitsIn 16 hexValue digits) } (suffixFlags { x := true } suffix),
          rest) := by
  obtain ⟨hTake, hDrop⟩ := digits_span hDigits hSuffix hEnds (fun s => (suffix_char s).2.2.2.1)
    fun c hc => (goesOn_false hc).2.2.2.1
  obtain ⟨hTake', hDrop'⟩ := suffix_span hSuffix hEnds
  simp only [scanZero, List.head?_cons, List.tail_cons, ↓reduceIte, hTake, hDrop, hTake', hDrop']

theorem scanZero_hex (hDigits : ∀ c ∈ digits, isHexDigit c = true) (hSuffix : IsSuffix suffix)
    (hEnds : Delimited rest) :
    scanZero (120 :: (digits ++ (suffix ++ rest))) =
      ((scanZero (120 :: (digits ++ suffix))).1, rest) := by
  have hNil := scanZero_hex_eq hDigits hSuffix delimited_nil
  rw [List.append_nil] at hNil
  rw [scanZero_hex_eq hDigits hSuffix hEnds, hNil]

theorem scanZero_oct_eq (hDigits : ∀ c ∈ digits, isOctDigit c = true) (hSuffix : IsSuffix suffix)
    (hEnds : Delimited rest) :
    scanZero (digits ++ (suffix ++ rest)) =
      (if digits = [] then
        .val { textVal .integer (digitsIn 8 (fun c => c.toNat - 48) digits) with
          size := sizeFor (digitsIn 8 (fun c => c.toNat - 48) digits) } (suffixFlags {} suffix)
      else
        .val { textVal .cardinal (digitsIn 8 (fun c => c.toNat - 48) digits) with
          size := sizeFor (digitsIn 8 (fun c => c.toNat - 48) digits) }
          (suffixFlags { x := true } suffix), rest) := by
  obtain ⟨hTake, hDrop⟩ := digits_span hDigits hSuffix hEnds (fun s => (suffix_char s).2.2.1)
    fun c hc => (goesOn_false hc).2.2.1
  obtain ⟨hTake', hDrop'⟩ := suffix_span hSuffix hEnds
  have hOct : (digits ++ (suffix ++ rest)).head? ≠ some 120 := by
    intro hHead
    have hNot : EndsAt (· = 120) (digits ++ (suffix ++ rest)) := by
      refine endsAt_append (fun c hc => ?_) (endsAt_append (fun c hc => ?_)
        (hEnds.endsAt fun c hc => by simpa using (goesOn_false hc).2.2.2.2.2))
      · have hDigit := hDigits c hc
        refine decide_eq_false ?_
        rintro rfl
        cases hDigit
      · obtain ⟨s, rfl⟩ := hSuffix
        obtain ⟨x, -, rfl⟩ := List.mem_map.1 hc
        cases x <;> rfl
    cases hNot 120 hHead
  simp only [scanZero, if_neg hOct, hTake, hDrop]
  by_cases hEmpty : digits = []
  · simp only [hEmpty, ↓reduceIte, List.nil_append, hTake', hDrop']
  · simp only [if_neg hEmpty, hTake', hDrop']

theorem scanZero_oct (hDigits : ∀ c ∈ digits, isOctDigit c = true) (hSuffix : IsSuffix suffix)
    (hEnds : Delimited rest) :
    scanZero (digits ++ (suffix ++ rest)) = ((scanZero (digits ++ suffix)).1, rest) := by
  have hNil := scanZero_oct_eq hDigits hSuffix delimited_nil
  rw [List.append_nil] at hNil
  rw [scanZero_oct_eq hDigits hSuffix hEnds, hNil]

end

/-! ## Symbols -/

section

variable (env : Env) {rest : Text}

/-- A character of a kind that the signs are not of. -/
theorem not_sign {p : UInt8 → Bool} {ch : UInt8}
    (hAll : ([40, 41, 123, 125, 126, 91, 93, 59, 63, 44, 46, 58, 45, 43, 60, 62, 61, 33,
    38, 124, 42,
      47, 37, 94] : List UInt8).all (fun d => !p d) = true) (hCh : p ch = true) :
    ch ∉ ([40, 41, 123, 125, 126, 91, 93, 59, 63, 44, 46, 58, 45, 43, 60, 62, 61, 33, 38,
      124, 42, 47,
      37, 94] : List UInt8) := by
  intro hMem
  have hNot := List.all_eq_true.1 hAll ch hMem
  rw [hCh] at hNot
  cases hNot

theorem nextSymbol_digit {ch : UInt8} (hDigit : isDigit ch = true) (hZero : ch ≠ 48)
    (text : Text) :
    nextSymbol env ch text =
      if isReal (text.dropWhile isDigit) then env.otherSymbol ch text
      else .ok (scanDecimal (ch :: text)) := by
  have hCh := not_sign rfl hDigit
  simp only [List.mem_cons, not_or] at hCh
  simp [nextSymbol, hCh, hZero, hDigit]

theorem isReal_oct (d : Fin 8) (text : Text) : isReal (digitChar d.val :: text) = false := by
  have hAll : ∀ d : Fin 8, digitChar d.val ∉ ([46, 101, 69, 102, 70] : List UInt8) := by decide
  simpa [isReal] using hAll d

theorem nextSymbol_zero (text : Text) :
    nextSymbol env 48 text =
      if isReal text then env.otherSymbol 48 text else .ok (scanZero text) := by
  simp [nextSymbol]

theorem nextSymbol_literal (l : Literal) (hLower : l.isLower = true) (hEnds : Delimited rest) :
    ∃ ch tail, l.text = ch :: tail ∧ isBlank ch = false ∧
      nextSymbol env ch (tail ++ rest) = .ok (l.sy, rest) := by
  cases l with
  | decimal first digits suffix =>
    have hSuffix : IsSuffix (suffix.map Suffix.char) := ⟨suffix, rfl⟩
    have hFirst : ∀ n : Fin 9, isBlank (digitChar (n.val + 1)) = false ∧
        isDigit (digitChar (n.val + 1)) = true ∧ digitChar (n.val + 1) ≠ 48 := by decide
    obtain ⟨hBlank, hDigit, hZero⟩ := hFirst first
    have hDigits : ∀ c ∈ digits.map (fun d => digitChar d.val), isDigit c = true := by
      intro c hc
      obtain ⟨d, -, rfl⟩ := List.mem_map.1 hc
      exact isDigit_digitChar d.isLt
    have hAll : ∀ c ∈ digitChar (first.val + 1) :: digits.map (fun d => digitChar d.val),
        isDigit c = true := by
      intro c hc
      rcases List.mem_cons.1 hc with rfl | hc
      · exact hDigit
      · exact hDigits c hc
    obtain ⟨-, hDrop⟩ := digits_span hDigits hSuffix hEnds (fun s => (suffix_char s).2.1)
      fun c hc => (goesOn_false hc).2.1
    have hScan := scanDecimal_append hAll hSuffix hEnds
    refine ⟨_, _, rfl, hBlank, ?_⟩
    rw [List.append_assoc, nextSymbol_digit env hDigit hZero, hDrop,
      isReal_suffix hSuffix hEnds]
    simp only [List.cons_append] at hScan
    simp only [Bool.false_eq_true, ↓reduceIte, hScan]
    rfl
  | octal digits suffix =>
    have hSuffix : IsSuffix (suffix.map Suffix.char) := ⟨suffix, rfl⟩
    have hDigits : ∀ c ∈ digits.map (fun d => digitChar d.val), isOctDigit c = true := by
      intro c hc
      obtain ⟨d, -, rfl⟩ := List.mem_map.1 hc
      exact isOctDigit_digitChar d
    have hReal : isReal (digits.map (fun d => digitChar d.val) ++
        (suffix.map Suffix.char ++ rest)) = false := by
      cases digits with
      | nil =>
        rw [List.map_nil, List.nil_append]
        exact isReal_suffix hSuffix hEnds
      | cons d ds => exact isReal_oct d _
    refine ⟨_, _, rfl, by decide, ?_⟩
    rw [List.append_assoc, nextSymbol_zero, hReal]
    simp only [Bool.false_eq_true, ↓reduceIte, scanZero_oct hDigits hSuffix hEnds]
    rfl
  | hex upper digits suffix =>
    have hSuffix : IsSuffix (suffix.map Suffix.char) := ⟨suffix, rfl⟩
    have hDigits : ∀ c ∈ digits.map hexChar, isHexDigit c = true := by
      intro c hc
      obtain ⟨d, -, rfl⟩ := List.mem_map.1 hc
      exact isHexDigit_hexChar d
    obtain rfl : upper = false := by simpa [Literal.isLower] using hLower
    refine ⟨_, _, rfl, by decide, ?_⟩
    rw [if_neg Bool.false_ne_true, List.cons_append, List.append_assoc, nextSymbol_zero,
      scanZero_hex hDigits hSuffix hEnds]
    rfl

/-- A symbol is read, and what follows is left. -/
theorem nextSymbol_token (t : Token) (hLower : t.isLower = true) (hApart : Apart rest) :
    ∃ ch tail, t.text = ch :: tail ∧ isBlank ch = false ∧
      nextSymbol env ch (tail ++ rest) = .ok (t.sy, rest) := by
  have hNext {c : UInt8} (longer : Text → Sy × Text) (short : Sy × Text) (hc : isBlank c = false) :
      ifNext c longer short rest = short := ifNext_apart hApart hc
  cases t with
  | literal l => exact nextSymbol_literal env l hLower hApart.delimited
  | binary op =>
    cases op
    all_goals
      refine ⟨_, _, rfl, by decide, ?_⟩
      simp [nextSymbol, Token.sy, BinOp.sy, hNext, isBlank]
  | complement | not | left | right | quest | colon | comma =>
    refine ⟨_, _, rfl, by decide, ?_⟩
    simp [nextSymbol, Token.sy, hNext, isBlank]

end

/-! ## The state of the scanner -/

/-- The next symbol is the first of the tokens, and the text goes on with the others. -/
def At (s : State) : List Token → Prop
  | [] => s.sy = .eof
  | t :: ts => s.sy = t.sy ∧ s.start = t.text ++ s.text ∧ Apart s.text ∧ Written ts s.text ∧
    ∀ u ∈ t :: ts, u.isLower = true

section

variable {env : Env} {s : State} {t : Token} {ts : List Token} {text rest : Text}

theorem nextSy_blank {blank : Text} (hBlank : Blank blank) (text : Text) :
    nextSy env (blank ++ text) = nextSy env text := by
  induction blank with
  | nil => rfl
  | cons c blank ih =>
    have hc : isBlank c = true := hBlank c List.mem_cons_self
    rw [List.cons_append, nextSy, if_pos hc]
    exact ih fun d hd => hBlank d (List.mem_cons_of_mem _ hd)

theorem nextSy_token (t : Token) (hLower : t.isLower = true) (hApart : Apart rest) :
    nextSy env (t.text ++ rest) = .ok ⟨t.sy, t.text ++ rest, rest⟩ := by
  obtain ⟨ch, tail, hText, hBlank, hNext⟩ := nextSymbol_token env t hLower hApart
  rw [hText, List.cons_append, nextSy, hNext]
  simp [hBlank]

/-- The first symbol of a writing is read. -/
theorem nextSy_written (h : Written ts text) (hLower : ∀ t ∈ ts, t.isLower = true) :
    ∃ s, nextSy env text = .ok s ∧ At s ts := by
  cases h with
  | nil hBlank =>
    have hNil : nextSy env (text ++ []) = nextSy env [] := nextSy_blank hBlank []
    rw [List.append_nil] at hNil
    exact ⟨_, hNil, rfl⟩
  | cons hBlank hApart hRest =>
    rw [nextSy_blank hBlank, nextSy_token _ (hLower _ List.mem_cons_self) hApart]
    exact ⟨_, rfl, rfl, rfl, hApart, hRest, hLower⟩

theorem At.sy (h : At s (t :: ts)) : s.sy = t.sy := h.1

/-- The next symbol is read. -/
theorem At.next (h : At s (t :: ts)) : ∃ s', s.next env = .ok s' ∧ At s' ts :=
  nextSy_written h.2.2.2.1 fun u hu => h.2.2.2.2 u (List.mem_cons_of_mem t hu)

/-- The symbol at `sy_pos` is read again. -/
theorem At.again (env : Env) (h : At s (t :: ts)) :
    ∃ s', nextSy env s.start = .ok s' ∧ At s' (t :: ts) := by
  obtain ⟨-, hStart, hApart, hRest, hLower⟩ := h
  rw [hStart, nextSy_token t (hLower t List.mem_cons_self) hApart]
  exact ⟨_, rfl, rfl, rfl, hApart, hRest, hLower⟩

end

end TcfAgent.Expressions
