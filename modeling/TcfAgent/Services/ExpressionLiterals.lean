import TcfAgent.Services.ExpressionScan

/-!
# What integer literals stand for

The scanner and `primary_expression` of `services/expressions.c` on integer literals. The digits are
added up in 64 bits, the type class comes from the suffix, and the types of the symbols service can
change both the class and the size.

Main results:

* `literalValue_denotes` — the types that are looked for keep the number;
* `literal_iff`          — which literals are read as the number they are.
-/

namespace TcfAgent.Expressions

open TcfAgent.JsonText

/-! ## The number -/

/-- The number that the digits are, without an end to its size. -/
def placeValue {α : Type} (base : Nat) (digit : α → Nat) (digits : List α) : Nat :=
  digits.foldl (fun n d => n * base + digit d) 0

def Literal.number : Literal → Nat
  | .decimal first digits _ =>
    placeValue 10 id ((first.val + 1) :: digits.map Fin.val)
  | .octal digits _ => placeValue 8 Fin.val digits
  | .hex _ digits _ => placeValue 16 (fun d => d.1.val) digits

/-- What the literal must stay below: a decimal one has a sign if its suffix does not say otherwise.
-/
def Literal.limit : Literal → Nat
  | .decimal _ _ suffix => if .u ∈ suffix ∨ .bigU ∈ suffix then 2 ^ 64 else 2 ^ 63
  | .octal _ _ | .hex _ _ _ => 2 ^ 64

/-- The value is this number: `to_uns` says so where it has no sign, and `to_int` where it has. -/
def Denotes (v : Value) (n : Nat) : Prop :=
  if v.typeClass = .cardinal then toUns .normal v = n else toInt .normal v = n

/-- Wherever the literal stands, its symbol and the value of `primary_expression` are its number, or
it is one that is too large and the scanner says so. `primary_expression` only adds the error that
the symbol behind the literal may give. -/
def Literal.IsRead (env : Env) (l : Literal) : Prop :=
  ∀ rest, Delimited rest →
    (l.limit ≤ l.number ∧ ∃ e, nextSy env (l.text ++ rest) = .error e) ∨
    ∃ v flags w, nextSy env (l.text ++ rest) = .ok ⟨.val v flags, l.text ++ rest, rest⟩ ∧
      Denotes v l.number ∧ Denotes w l.number ∧
        ∀ expression fuel mode,
          primaryExpression env expression fuel mode ⟨.val v flags, l.text ++ rest, rest⟩ =
            (nextSy env rest).map fun s => (w, s)

section

variable {env : Env} {v w : Value} {n : Nat} {size : Size}

theorem digitsIn_map {α : Type} (base : Nat) {digit : UInt8 → Nat} {char : α → UInt8}
    {value : α → Nat} (h : ∀ d, digit (char d) = value d) (digits : List α) :
    digitsIn base digit (digits.map char) = placeValue base value digits % 2 ^ 64 := by
  rw [digitsIn, List.foldl_map, placeValue]
  simp only [h]

theorem digitChar_value {d : Nat} (h : d < 10) : (digitChar d).toNat - 48 = d := by
  have hAll : ∀ d < 10, (digitChar d).toNat - 48 = d := by decide
  exact hAll d h

theorem hexChar_value (d : Fin 16 × Bool) : hexValue (hexChar d) = d.1.val := by
  obtain ⟨x, b⟩ := d
  revert x b
  decide

/-- A number that has the size it needs. -/
theorem lt_sizeFor (h : n < 2 ^ 64) : n < 2 ^ (sizeFor n).bits := by
  unfold sizeFor
  split
  · assumption
  · split
    · assumption
    · split
      · assumption
      · exact h

theorem bmod_small {m : Nat} (h : 2 * n < m) : Int.bmod n m = n := by
  rw [Int.bmod_def]
  have hMod : (n : Int) % m = n := Int.emod_eq_of_lt (Int.natCast_nonneg n) (by omega)
  rw [hMod]
  split
  · rfl
  · omega

/-- A value whose bits are the number, with room for its sign. -/
structure Holds (v : Value) (n : Nat) : Prop where
  bits  : v.bits = n
  whole : v.typeClass ≠ .enumeration
  small : n < 2 ^ 64
  sign  : v.typeClass = .integer → 2 * n < 2 ^ v.size.bits

theorem Holds.denotes (h : Holds v n) : Denotes v n := by
  unfold Denotes toUns toInt
  rcases hClass : v.typeClass with - | - | -
  · have hSign := bmod_small (h.sign hClass)
    simp [h.bits, hSign]
  · simp [h.bits]
  · exact absurd hClass h.whole

theorem Holds.toUns (h : Holds v n) : toUns .normal v = n := by
  unfold Expressions.toUns
  rcases hClass : v.typeClass with - | - | -
  · have hSign := bmod_small (h.sign hClass)
    have hSmall := h.small
    simp only [ne_eq, not_true_eq_false, if_false, h.bits, hSign]
    omega
  · simp [h.bits]
  · exact absurd hClass h.whole

/-! ## The symbol -/

theorem suffixFlags_u (flags : Flags) (suffix : List Suffix) :
    (suffixFlags flags (suffix.map Suffix.char)).u = true ↔
      flags.u = true ∨ .u ∈ suffix ∨ .bigU ∈ suffix := by
  have hAny : (suffix.map Suffix.char).any (fun c => c = 117 || c = 85) = true ↔
      .u ∈ suffix ∨ .bigU ∈ suffix := by
    simp only [List.any_map, List.any_eq_true, Function.comp_apply, Bool.or_eq_true,
      decide_eq_true_eq]
    constructor
    · rintro ⟨x, hx, hChar⟩
      cases x with
      | u => exact .inl hx
      | bigU => exact .inr hx
      | l => rcases hChar with h | h <;> exact absurd h (by decide)
      | bigL => rcases hChar with h | h <;> exact absurd h (by decide)
    · rintro (hx | hx)
      · exact ⟨_, hx, .inl rfl⟩
      · exact ⟨_, hx, .inr rfl⟩
  simp only [suffixFlags, Bool.or_eq_true, hAny]

/-- What the scanner makes of a literal: its number in 64 bits, with a size that is enough for it
and, where the class has one, for a sign. -/
theorem Literal.sy_eq (l : Literal) : ∃ v flags, l.sy = .val v flags ∧
    v.bits = l.number % 2 ^ 64 ∧
      ((v.typeClass = .cardinal ∧ l.limit = 2 ^ 64) ∨
        (v.typeClass = .integer ∧ (l.limit = 2 ^ 63 ∨ l.number = 0) ∧
          v.size = sizeFor (2 * (l.number % 2 ^ 64)))) := by
  cases l with
  | decimal first digits suffix =>
    have hSuffix : IsSuffix (suffix.map Suffix.char) := ⟨suffix, rfl⟩
    have hText : digitChar (first.val + 1) :: digits.map (fun d => digitChar d.val) =
        ((first.succ : Fin 10) :: digits).map fun d => digitChar d.val := rfl
    have hDigits : ∀ c ∈ ((first.succ : Fin 10) :: digits).map (fun d => digitChar d.val),
        isDigit c = true := by
      intro c hc
      obtain ⟨d, -, rfl⟩ := List.mem_map.1 hc
      exact isDigit_digitChar d.isLt
    have hScan := scanDecimal_eq hDigits hSuffix delimited_nil
    rw [List.append_nil, ← hText, List.cons_append] at hScan
    have hNumber : digitsIn 10 (fun c => c.toNat - 48)
        (digitChar (first.val + 1) :: digits.map (fun d => digitChar d.val)) =
          Literal.number (.decimal first digits suffix) % 2 ^ 64 := by
      rw [hText, digitsIn_map 10 fun d : Fin 10 => digitChar_value d.isLt]
      have hPlace : placeValue 10 Fin.val ((first.succ : Fin 10) :: digits) =
          placeValue 10 id ((first.val + 1) :: digits.map Fin.val) := by
        simp only [placeValue, List.foldl_cons, List.foldl_map, Fin.val_succ, id]
      rw [hPlace]
      rfl
    rw [hNumber] at hScan
    have hFlag := suffixFlags_u {} suffix
    -- a suffix makes the value unsigned
    by_cases hU : (suffixFlags {} (suffix.map Suffix.char)).u = true
    · rw [if_pos hU] at hScan
      have hIn : .u ∈ suffix ∨ .bigU ∈ suffix := by simpa using hFlag.1 hU
      exact ⟨_, _, congrArg Prod.fst hScan, rfl, .inl ⟨rfl, if_pos hIn⟩⟩
    · rw [if_neg hU] at hScan
      have hNot : ¬ (.u ∈ suffix ∨ .bigU ∈ suffix) := fun hIn => hU (hFlag.2 (.inr hIn))
      exact ⟨_, _, congrArg Prod.fst hScan, rfl, .inr ⟨rfl, .inl (if_neg hNot), rfl⟩⟩
  | octal digits suffix =>
    have hSuffix : IsSuffix (suffix.map Suffix.char) := ⟨suffix, rfl⟩
    have hDigits : ∀ c ∈ digits.map (fun d => digitChar d.val), isOctDigit c = true := by
      intro c hc
      obtain ⟨d, -, rfl⟩ := List.mem_map.1 hc
      exact isOctDigit_digitChar d
    have hScan := scanZero_oct_eq hDigits hSuffix delimited_nil
    rw [List.append_nil,
      digitsIn_map 8 fun d : Fin 8 => digitChar_value (d.isLt.trans (by decide))] at hScan
    cases digits with
    | nil => exact ⟨_, _, congrArg Prod.fst hScan, rfl, .inr ⟨rfl, .inr rfl, rfl⟩⟩
    | cons d digits => exact ⟨_, _, congrArg Prod.fst hScan, rfl, .inl ⟨rfl, rfl⟩⟩
  | hex upper digits suffix =>
    have hSuffix : IsSuffix (suffix.map Suffix.char) := ⟨suffix, rfl⟩
    have hDigits : ∀ c ∈ digits.map hexChar, isHexDigit c = true := by
      intro c hc
      obtain ⟨d, -, rfl⟩ := List.mem_map.1 hc
      exact isHexDigit_hexChar d
    have hScan := scanZero_hex_eq hDigits hSuffix delimited_nil
    rw [List.append_nil, digitsIn_map 16 hexChar_value] at hScan
    exact ⟨_, _, congrArg Prod.fst hScan, rfl, .inl ⟨rfl, rfl⟩⟩

theorem limit_eq (l : Literal) : l.limit = 2 ^ 63 ∨ l.limit = 2 ^ 64 := by
  cases l with
  | decimal first digits suffix =>
      exact (em _).elim (fun h => .inr (if_pos h)) fun h => .inl (if_neg h)
  | octal digits suffix => exact .inr rfl
  | hex upper digits suffix => exact .inr rfl

/-- The symbol of a literal is its number exactly if that is below the limit. -/
theorem Literal.sy_denotes (l : Literal) : ∃ v flags, l.sy = .val v flags ∧
    (l.number < l.limit → Holds v l.number) ∧ (Denotes v l.number → l.number < l.limit) := by
  obtain ⟨v, flags, hSy, hBits, hClass⟩ := l.sy_eq
  have hLimit := limit_eq l
  refine ⟨v, flags, hSy, fun hSmall => ?_, fun h => ?_⟩
  · have hFits : l.number % 2 ^ 64 = l.number := Nat.mod_eq_of_lt (by omega)
    rw [hFits] at hBits hClass
    rcases hClass with ⟨hCardinal, -⟩ | ⟨hInteger, hSign, hSize⟩
    · refine ⟨hBits, ?_, by omega, ?_⟩
      · rw [hCardinal]
        exact fun h => by cases h
      · rw [hCardinal]
        exact fun h => by cases h
    · refine ⟨hBits, ?_, by omega, fun _ => ?_⟩
      · rw [hInteger]
        exact fun h => by cases h
      · rw [hSize]
        exact lt_sizeFor (by omega)
  · unfold Denotes at h
    rcases hClass with ⟨hCardinal, hWide⟩ | ⟨hInteger, hSign, hSize⟩
    · rw [if_pos hCardinal] at h
      have hUns : toUns .normal v = v.bits := by
        unfold toUns
        rw [hCardinal]
        rfl
      rw [hUns, hBits] at h
      omega
    · rw [if_neg (by rw [hInteger]; exact fun h => by cases h)] at h
      have hInt : toInt .normal v = Int.bmod v.bits (2 ^ v.size.bits) := by
        unfold toInt
        rw [hInteger]
        rfl
      have hMax : v.size.bits ≤ 64 := by
        cases v.size <;> decide
      have hPow : (2 : Nat) ^ v.size.bits ≤ 2 ^ 64 := Nat.pow_le_pow_right (by decide) hMax
      have hLess : Int.bmod v.bits (2 ^ v.size.bits) < (2 ^ v.size.bits + 1 : Nat) / 2 := by
        have hPos : 0 < (2 : Nat) ^ v.size.bits := Nat.two_pow_pos _
        exact_mod_cast Int.bmod_lt hPos
      rw [hInt] at h
      rw [h] at hLess
      omega

/-! ## The types of the symbols service -/

/-- A type has room for a number, and for its sign. -/
structure Room (typeClass : TypeClass) (size : Size) (n : Nat) : Prop where
  whole : typeClass ≠ .enumeration
  fits  : n < 2 ^ size.bits
  sign  : typeClass = .integer → 2 * n < 2 ^ size.bits

theorem eq_of_guard {α : Type} {b : Bool} {o : Option α} {x : α}
    (h : (if b = true then o else none) = some x) : o = some x := by
  split at h
  · exact h
  · cases h

theorem fits_room {name name' : String} {typeClass typeClass' : TypeClass} (hSmall : n < 2 ^ 64)
    (hWhole : typeClass ≠ .enumeration)
    (h : fits env n name typeClass = some (name', typeClass', size)) :
    Room typeClass' size n := by
  unfold fits at h
  split at h
  · split at h
    · next hLimit =>
      cases h
      rcases hClass : typeClass with - | - | -
      · rw [hClass] at hLimit
        have hHalf : n ≤ 2 ^ (size.bits - 1) - 1 := hLimit
        have hBits : 2 ^ size.bits = 2 * 2 ^ (size.bits - 1) := by
          cases size <;> rfl
        have hPos : 0 < (2 : Nat) ^ (size.bits - 1) := Nat.two_pow_pos _
        refine ⟨?_, by omega, fun _ => by omega⟩
        rintro ⟨⟩
      · refine ⟨?_, ?_, ?_⟩
        · rintro ⟨⟩
        swap
        · rintro ⟨⟩
        by_cases hSize : size = .s8
        · rw [hSize]
          exact hSmall
        · rw [hClass, typeLimit, if_pos rfl, if_neg hSize] at hLimit
          have hPos : 0 < (2 : Nat) ^ size.bits := Nat.two_pow_pos _
          omega
      · exact absurd hClass hWhole
    · cases h
  · cases h

/-- The types that are looked for keep the number. -/
theorem literalValue_denotes (h : Holds v n) (flags : Flags) :
    Denotes (literalValue env v flags) n := by
  have hInteger {text name : String} {typeClass : TypeClass} {size : Size}
      (hFits : fits env n text .integer = some (name, typeClass, size)) :
      Room typeClass size n := fits_room h.small (by decide) hFits
  have hCardinal {text name : String} {typeClass : TypeClass} {size : Size}
      (hFits : fits env n text .cardinal = some (name, typeClass, size)) :
      Room typeClass size n := fits_room h.small (by decide) hFits
  unfold literalValue
  rw [h.toUns]
  dsimp only
  split
  · next name typeClass size hFound =>
    have hRoom : Room typeClass size n := by
      simp only [Option.orElse_eq_orElse, Option.orElse_eq_or, Option.or_eq_some_iff] at hFound
      rcases hFound with hFound | ⟨-, hFound | ⟨-, hFound | ⟨-, hFound⟩⟩⟩
      · exact hInteger (eq_of_guard hFound)
      · exact hCardinal (eq_of_guard hFound)
      · exact hInteger (eq_of_guard hFound)
      · exact hCardinal hFound
    split
    · refine Holds.denotes ⟨?_, hRoom.whole, h.small, hRoom.sign⟩
      have hMod : (n : Int) % 2 ^ size.bits = n :=
        Int.emod_eq_of_lt (Int.natCast_nonneg n) (by exact_mod_cast hRoom.fits)
      show ((n : Int) % 2 ^ size.bits).toNat = n
      rw [hMod, Int.toNat_natCast]
    · next hSize =>
      have hSame : size = v.size := not_not.1 hSize
      rw [hSame] at hRoom
      exact Holds.denotes ⟨h.bits, hRoom.whole, h.small, hRoom.sign⟩
  · exact h.denotes

/-! ## Literals in a text -/

theorem nextSy_literal (env : Env) {l : Literal} (hLower : l.isLower = true) {rest : Text}
    (hEnds : Delimited rest) :
    nextSy env (l.text ++ rest) = .ok ⟨l.sy, l.text ++ rest, rest⟩ := by
  obtain ⟨ch, tail, hText, hBlank, hNext⟩ := nextSymbol_literal env l hLower hEnds
  rw [hText, List.cons_append, nextSy, hNext]
  simp [hBlank]

/-- Of a literal with `0X`, the scanner reads the 0. -/
theorem nextSy_upper (env : Env) (digits : List (Fin 16 × Bool)) (suffix : List Suffix) :
    ∃ sy start, nextSy env (Literal.text (.hex true digits suffix)) =
      .ok ⟨sy, start, 88 :: (digits.map hexChar ++ suffix.map Suffix.char)⟩ := by
  have hText : Literal.text (.hex true digits suffix) =
      48 :: 88 :: (digits.map hexChar ++ suffix.map Suffix.char) := rfl
  generalize digits.map hexChar ++ suffix.map Suffix.char = tail at hText ⊢
  have hScan : scanZero (88 :: tail) = ((scanZero (88 :: tail)).1, 88 :: tail) := rfl
  have hNext : nextSymbol env 48 (88 :: tail) = .ok (scanZero (88 :: tail)) := nextSymbol_zero env _
  rw [hText, nextSy, hNext, hScan]
  exact ⟨_, _, rfl⟩

theorem primaryExpression_val {expression : Parser} {fuel : Nat} {mode : Mode} {s : State}
    {flags : Flags} (h : s.sy = .val v flags) :
    primaryExpression env expression fuel mode s =
      (s.next env).map fun s => (literalValue env v flags, s) := by
  unfold primaryExpression
  rw [h]
  cases s.next env <;> rfl

/-- An integer literal is read as the number it is exactly if it has not the prefix `0X` and the
number is below the limit of its class: from there on the digits are added up without a look at what
no longer fits. -/
theorem literal_iff (env : Env) (l : Literal) :
    l.IsRead env ↔ l.isLower = true ∧ l.number < l.limit := by
  by_cases hLower : l.isLower = true
  swap
  · refine iff_of_false (fun hRead => ?_) fun h => hLower h.1
    obtain ⟨digits, suffix, rfl⟩ : ∃ digits suffix, l = .hex true digits suffix := by
      cases l with
      | hex upper digits suffix =>
        cases upper with
        | true => exact ⟨digits, suffix, rfl⟩
        | false => exact absurd rfl hLower
      | decimal _ _ _ | octal _ _ => exact absurd rfl hLower
    obtain ⟨sy, start, hNext⟩ := nextSy_upper env digits suffix
    rcases hRead [] delimited_nil with ⟨-, e, hError⟩ | ⟨v, flags, w, hOk, -⟩
    · rw [List.append_nil, hNext] at hError
      cases hError
    · rw [List.append_nil, hNext] at hOk
      cases hOk
  rw [and_iff_right hLower]
  obtain ⟨v, flags, hSy, hHolds, hSmall⟩ := l.sy_denotes
  have hNext {rest : Text} (hEnds : Delimited rest) := nextSy_literal env hLower hEnds
  rw [hSy] at hNext
  constructor
  · intro hRead
    rcases hRead [] delimited_nil with ⟨-, e, hError⟩ | ⟨v', flags', -, hOk, hDenotes, -⟩
    · rw [hNext delimited_nil] at hError
      cases hError
    · rw [hNext delimited_nil] at hOk
      cases hOk
      exact hSmall hDenotes
  · intro hLess rest hEnds
    have hNumber := hHolds hLess
    exact .inr ⟨v, flags, literalValue env v flags, hNext hEnds, hNumber.denotes,
      literalValue_denotes hNumber flags, fun _ _ _ => primaryExpression_val rfl⟩

/-- `9223372036854775808` is read as the negative number with these bits. -/
theorem not_literal : ¬ ∀ (env : Env) (l : Literal), l.IsRead env := by
  intro hAll
  have hRead :=
    hAll noSymbols (.decimal 8 [2, 2, 3, 3, 7, 2, 0, 3, 6, 8, 5, 4, 7, 7, 5, 8, 0, 8] [])
  have hSymbol : nextSy noSymbols (ascii "9223372036854775808") =
      .ok ⟨.val ⟨.integer, none, .s8, 2 ^ 63, true⟩ {}, ascii "9223372036854775808", []⟩ := by
    decide
  have hValue : toInt .normal ⟨.integer, none, .s8, 2 ^ 63, true⟩ = -2 ^ 63 := by decide
  rcases hRead [] delimited_nil with ⟨-, e, hError⟩ | ⟨v, flags, w, hOk, hDenotes, -⟩
  · cases hSymbol.symm.trans hError
  · have hSame : State.sy _ = State.sy _ :=
      congrArg State.sy (Except.ok.inj (hSymbol.symm.trans hOk))
    cases hSame
    cases (hValue.symm.trans hDenotes)

end

end TcfAgent.Expressions
