import TcfAgent.Framework.JsonBuffers

/-!
# Numbers of 64 bits as JSON text

`framework/json.c`: `json_write_int64` writes the digits of an unsigned number behind the sign,
`json_read_int64` reads them into a signed one and negates it in the end. A signed operation that
overflows is a fault; unsigned ones wrap.

Main results

* `readDigits_eq`           — digits are read as long as their number fits
* `jsonReadUint64_refines`  — the loop over digits agrees with the number that they spell
* `integers_read_iff`       — every number is read as it was written, but the least one
-/

namespace TcfAgent.JsonBuffers

open TcfAgent.Lib TcfAgent.JsonString TcfAgent.JsonText

/-! ## Writers -/

/-- An unsigned number of 64 bits. -/
def u64 (n : Nat) : Nat := n % 2 ^ 64

/-- `~u` -/
def not64 (u : Nat) : Nat := 2 ^ 64 - 1 - u

/-- `json_write_uint64` -/
def jsonWriteUint64 (n : Nat) : Text := decimal n

/-- `json_write_int64` -/
def jsonWriteInt64 (n : Int) : Text :=
  let u := (n % 2 ^ 64).toNat
  if n < 0 then 45 :: jsonWriteUint64 (u64 (not64 u + 1)) else jsonWriteUint64 u

/-! ## Readers -/

/-- The result of a signed operation. -/
def signed64 (n : Int) : Result Int :=
  if -2 ^ 63 ≤ n ∧ n < 2 ^ 63 then .ok n else .error .fault

/-- `res = res * 10 + (ch - '0')`, signed. -/
def addDigit (res : Int) (ch : UInt8) : Result Int := do
  signed64 ((← signed64 (res * 10)) + ((ch.toNat : Int) - 48))

/-- `res = res * 10 + (ch - '0')`, unsigned. -/
def addDigitU (res : Nat) (ch : UInt8) : Nat := u64 (u64 (res * 10) + (ch.toNat - 48))

/-- The loop of `json_read_int64`. -/
def readDigits (res : Int) : Text → Result (Int × Text)
  | [] => .ok (res, [])
  | ch :: text =>
      if isDigit ch then do readDigits (← addDigit res ch) text else .ok (res, ch :: text)

/-- The loop of `json_read_uint64`. -/
def readDigitsU (res : Nat) : Text → Nat × Text
  | [] => (res, [])
  | ch :: text => if isDigit ch then readDigitsU (addDigitU res ch) text else (res, ch :: text)

/-- `json_read_int64` -/
def jsonReadInt64 (text : Text) : Result (Int × Text) :=
  match readSign (text.dropWhile isSpace) with
  | (neg, ch :: text) =>
    if isDigit ch then do
      let (res, text) ← readDigits ((ch.toNat : Int) - 48) text
      if neg then return (← signed64 (-res), text) else return (res, text)
    else .error (.raise .jsonSyntax)
  | (_, []) => .error (.raise .jsonSyntax)

/-- `json_read_uint64` -/
def jsonReadUint64 (text : Text) : Result (Nat × Text) :=
  match readSign (text.dropWhile isSpace) with
  | (neg, ch :: text) =>
    if isDigit ch then
      let (res, text) := readDigitsU (ch.toNat - 48) text
      .ok (if neg then u64 (not64 res + 1) else res, text)
    else .error (.raise .jsonSyntax)
  | (_, []) => .error (.raise .jsonSyntax)

/-! ## Digits -/

/-- The number of some digits behind a number. -/
def digitsFrom (res : Nat) (t : Text) : Nat := t.foldl (fun n c => n * 10 + (c.toNat - 48)) res

section

variable {n : Nat} {c : UInt8} {t rest : Text}

theorem digitsFrom_cons (res : Nat) (c : UInt8) (t : Text) :
    digitsFrom res (c :: t) = digitsFrom (res * 10 + (c.toNat - 48)) t := by
  unfold digitsFrom
  rw [List.foldl_cons]

theorem le_digitsFrom (res : Nat) (t : Text) : res ≤ digitsFrom res t := by
  induction t generalizing res with
  | nil => exact Nat.le_refl _
  | cons c t ih =>
    have hRest := ih (res * 10 + (c.toNat - 48))
    rw [digitsFrom_cons]
    omega

theorem digit_le (h : isDigit c = true) : 48 ≤ c.toNat ∧ c.toNat ≤ 57 := by
  simp only [isDigit, Bool.and_eq_true, decide_eq_true_eq] at h
  exact ⟨UInt8.le_iff_toNat_le.1 h.1, UInt8.le_iff_toNat_le.1 h.2⟩

theorem signed64_natCast : signed64 (n : Int) = if n < 2 ^ 63 then .ok
    (n : Int) else .error .fault := by
  unfold signed64
  by_cases h : n < 2 ^ 63
  · rw [if_pos h, if_pos (by omega)]
  · rw [if_neg h, if_neg (by omega)]

theorem addDigit_eq (h : isDigit c = true) :
    addDigit n c = if n * 10 + (c.toNat - 48) < 2 ^ 63 then
      .ok ((n * 10 + (c.toNat - 48) : Nat) : Int) else .error .fault := by
  have hDigit := digit_le h
  have hMul : (n : Int) * 10 = (n * 10 : Nat) := by push_cast; rfl
  have hAdd :
    ((n * 10 : Nat) : Int) + ((c.toNat : Int) - 48) = (n * 10 + (c.toNat - 48) : Nat) := by
    omega
  unfold addDigit
  rw [hMul, signed64_natCast]
  by_cases hFits : n * 10 + (c.toNat - 48) < 2 ^ 63
  · rw [if_pos hFits, if_pos (by omega)]
    show signed64 (((n * 10 : Nat) : Int) + ((c.toNat : Int) - 48)) = _
    rw [hAdd, signed64_natCast, if_pos hFits]
  · rw [if_neg hFits]
    by_cases hTens : n * 10 < 2 ^ 63
    · rw [if_pos hTens]
      show signed64 (((n * 10 : Nat) : Int) + ((c.toNat : Int) - 48)) = _
      rw [hAdd, signed64_natCast, if_neg hFits]
    · rw [if_neg hTens]
      rfl

/-- Digits are read as long as their number fits. -/
theorem readDigits_eq (ht : ∀ c ∈ t, isDigit c = true) (hRest : NoDigit rest) (hn : n < 2 ^ 63) :
    readDigits n (t ++ rest) =
      if digitsFrom n t < 2 ^ 63 then .ok ((digitsFrom n t : Int), rest) else .error .fault := by
  induction t generalizing n with
  | nil =>
    rw [List.nil_append, digitsFrom, List.foldl_nil, if_pos hn]
    cases rest with
    | nil => rfl
    | cons c rest =>
      have hc : isDigit c = false := hRest c rfl
      rw [readDigits, hc]
      rfl
  | cons c t ih =>
    have hc := ht c List.mem_cons_self
    have hLe := le_digitsFrom (n * 10 + (c.toNat - 48)) t
    rw [List.cons_append, readDigits, if_pos hc, addDigit_eq hc, digitsFrom_cons]
    by_cases hFits : n * 10 + (c.toNat - 48) < 2 ^ 63
    · rw [if_pos hFits]
      exact ih (fun c hc => ht c (List.mem_cons_of_mem _ hc)) hFits
    · rw [if_neg hFits, if_neg (by omega)]
      rfl

theorem u64_digitsFrom (n : Nat) (t : Text) : u64 (digitsFrom (u64 n) t) = u64 (digitsFrom n t) := by
  induction t generalizing n with
  | nil => exact Nat.mod_mod _ _
  | cons c t ih =>
    have hStep : u64 (u64 n * 10 + (c.toNat - 48)) = u64 (n * 10 + (c.toNat - 48)) := by
      unfold u64
      omega
    rw [digitsFrom_cons, digitsFrom_cons, ← ih, hStep, ih]

/-- The loop reads the digits that come next, modulo `2 ^ 64`. -/
theorem readDigitsU_text (hn : n < 2 ^ 64) (t : Text) :
    readDigitsU n t = (u64 (digitsFrom n (t.takeWhile isDigit)), t.dropWhile isDigit) := by
  induction t generalizing n with
  | nil => exact congrArg (·, []) (Nat.mod_eq_of_lt hn).symm
  | cons c t ih =>
    rw [readDigitsU]
    by_cases hc : isDigit c = true
    · have hAdd : addDigitU n c = u64 (n * 10 + (c.toNat - 48)) := by
        unfold addDigitU u64
        omega
      have hLt : u64 (n * 10 + (c.toNat - 48)) < 2 ^ 64 := Nat.mod_lt _ (by decide)
      rw [if_pos hc, hAdd, ih hLt, u64_digitsFrom,
        List.takeWhile_cons_of_pos hc, List.dropWhile_cons_of_pos hc, digitsFrom_cons]
    · rw [if_neg hc, List.takeWhile_cons_of_neg hc, List.dropWhile_cons_of_neg hc]
      exact congrArg (·, c :: t) (Nat.mod_eq_of_lt hn).symm

theorem readDigitsU_eq (ht : ∀ c ∈ t, isDigit c = true) (hRest : NoDigit rest)
    (hn : digitsFrom n t < 2 ^ 64) : readDigitsU n (t ++ rest) = (digitsFrom n t, rest) := by
  obtain ⟨hTake, hDrop⟩ := takeWhile_digits ht hRest
  rw [readDigitsU_text (Nat.lt_of_le_of_lt (le_digitsFrom n t) hn), hTake, hDrop, u64,
    Nat.mod_eq_of_lt hn]

/-- The digits of a number. -/
theorem decimal_cons (n : Nat) : ∃ c t, decimal n = c :: t ∧ isDigit c = true ∧
    (∀ c ∈ t, isDigit c = true) ∧ digitsFrom (c.toNat - 48) t = n := by
  obtain ⟨hDigits, hSome, hValue⟩ := decimalAux_spec (Nat.le_refl n)
  unfold decimal
  cases hText : decimalAux n n with
  | nil => exact absurd hText hSome
  | cons c t =>
    rw [hText] at hDigits hValue
    refine ⟨c, t, rfl, hDigits c List.mem_cons_self,
      fun c hc => hDigits c (List.mem_cons_of_mem _ hc), ?_⟩
    rw [← hValue]
    show _ = digitsFrom (0 * 10 + (c.toNat - 48)) t
    rw [Nat.zero_mul, Nat.zero_add]

end

/-! ## Numbers -/

section

variable {n : Nat} {rest : Text}

/-- A number behind its sign. -/
def signedText (neg : Bool) (n : Nat) : Text := if neg then 45 :: decimal n else decimal n

theorem readSign_signedText (neg : Bool) (n : Nat) (rest : Text) :
    readSign ((signedText neg n ++ rest).dropWhile isSpace) = (neg, decimal n ++ rest) := by
  obtain ⟨c, t, hText, hc, -⟩ := decimal_cons n
  obtain ⟨hSpace, hMinus⟩ := isSpace_of_isDigit hc
  cases neg with
  | true => rfl
  | false =>
    show readSign ((decimal n ++ rest).dropWhile isSpace) = _
    rw [hText, List.cons_append, List.dropWhile_cons_of_neg (by simp [hSpace]), readSign,
      if_neg hMinus]

theorem readInt64_signedText (neg : Bool) (hRest : NoDigit rest) :
    jsonReadInt64 (signedText neg n ++ rest) =
      if n < 2 ^ 63 then .ok (if neg then -(n : Int) else n, rest) else .error .fault := by
  obtain ⟨c, t, hText, hc, ht, hValue⟩ := decimal_cons n
  have hDigit := digit_le hc
  have hFirst : (c.toNat : Int) - 48 = ((c.toNat - 48 : Nat) : Int) := by omega
  have hRun := @readDigits_eq (c.toNat - 48) t rest ht hRest (by omega)
  rw [hValue] at hRun
  unfold jsonReadInt64
  rw [readSign_signedText, hText, List.cons_append]
  simp only [hc, ↓reduceIte, hFirst, hRun]
  by_cases hFits : n < 2 ^ 63
  · rw [if_pos hFits, if_pos hFits]
    cases neg with
    | true =>
      have hNeg : signed64 (-(n : Int)) = .ok (-(n : Int)) := if_pos (by omega)
      show (signed64 (-(n : Int)) >>= fun res => Except.ok (res, rest)) = _
      rw [hNeg]
      rfl
    | false => rfl
  · rw [if_neg hFits, if_neg hFits]
    rfl

theorem readUint64_write (hn : n < 2 ^ 64) (hRest : NoDigit rest) :
    jsonReadUint64 (jsonWriteUint64 n ++ rest) = .ok (n, rest) := by
  obtain ⟨c, t, hText, hc, ht, hValue⟩ := decimal_cons n
  have hRun := @readDigitsU_eq (c.toNat - 48) t rest ht hRest (by omega)
  rw [hValue] at hRun
  have hSign := readSign_signedText false n rest
  have hSame : signedText false n = jsonWriteUint64 n := rfl
  rw [hSame, hText, List.cons_append] at hSign
  unfold jsonReadUint64
  rw [hSign]
  simp only [hc, ↓reduceIte, hRun]
  rfl

/-- The loop over the digits computes the number that the digits spell. -/
theorem jsonReadUint64_refines {text : Text} (h : JsonText.jsonReadUint64 text = some (n, rest)) :
    jsonReadUint64 text = .ok (n, rest) := by
  unfold JsonText.jsonReadUint64 readNumber at h
  unfold jsonReadUint64
  generalize readSign (text.dropWhile isSpace) = sign at h ⊢
  obtain ⟨neg, digits⟩ := sign
  cases digits with
  | nil => cases h
  | cons c t =>
    by_cases hc : isDigit c = true
    · have hDigit := digit_le hc
      have hValue : digitsValue ((c :: t).takeWhile isDigit) =
          digitsFrom (c.toNat - 48) (t.takeWhile isDigit) := by
        rw [List.takeWhile_cons_of_pos hc]
        unfold digitsValue digitsFrom
        rw [List.foldl_cons, Nat.zero_mul, Nat.zero_add]
      simp only [hc, ↓reduceIte, Option.map_some, hValue, Option.some.injEq, Prod.mk.injEq,
        List.dropWhile_cons_of_pos hc] at h
      obtain ⟨rfl, rfl⟩ := h
      simp only [hc, ↓reduceIte, readDigitsU_text (by omega : c.toNat - 48 < 2 ^ 64)]
      cases neg with
      | true =>
        simp only [↓reduceIte, u64, not64]
        congr 2
        omega
      | false => rfl
    · simp [hc] at h

theorem jsonWriteInt64_eq {n : Int} (hMin : -2 ^ 63 ≤ n) (hMax : n < 2 ^ 63) :
    jsonWriteInt64 n = signedText (decide (n < 0)) n.natAbs := by
  unfold jsonWriteInt64 signedText
  by_cases hNeg : n < 0
  · have hAbs : u64 (not64 (n % 2 ^ 64).toNat + 1) = n.natAbs := by
      unfold u64 not64
      omega
    simp only [hNeg, ↓reduceIte, decide_true, hAbs]
    rfl
  · have hAbs : (n % 2 ^ 64).toNat = n.natAbs := by omega
    simp only [hNeg, ↓reduceIte, decide_false, Bool.false_eq_true, hAbs]
    rfl

/-- Every number is read as it was written and without an overflow, but for the least one. -/
theorem integers_read_iff (rest : Text) (hRest : NoDigit rest) :
    (∀ n : Int, -2 ^ 63 ≤ n → n < 2 ^ 63 →
      (jsonReadInt64 (jsonWriteInt64 n ++ rest) = .ok (n, rest) ↔ n ≠ -2 ^ 63)) ∧
    ∀ n : Nat, n < 2 ^ 64 → jsonReadUint64 (jsonWriteUint64 n ++ rest) = .ok (n, rest) := by
  refine ⟨fun n hMin hMax => ?_, fun n hn => readUint64_write hn hRest⟩
  rw [jsonWriteInt64_eq hMin hMax, readInt64_signedText _ hRest]
  by_cases hLeast : n = -2 ^ 63
  · have hNot : ¬ n.natAbs < 2 ^ 63 := by omega
    rw [if_neg hNot]
    exact ⟨fun h => (by cases h), fun h => absurd hLeast h⟩
  · have hFits : n.natAbs < 2 ^ 63 := by omega
    have hSame : (if decide (n < 0) = true then -(n.natAbs : Int) else n.natAbs) = n := by
      by_cases hNeg : n < 0
      · simp only [hNeg, decide_true, ↓reduceIte]
        omega
      · simp only [hNeg, decide_false, Bool.false_eq_true, ↓reduceIte]
        omega
    rw [if_pos hFits, hSame]
    exact ⟨fun _ => hLeast, fun _ => rfl⟩

end

theorem integers_read_example :
    jsonReadInt64 (jsonWriteInt64 (-15) ++ [44]) = .ok (-15, [44]) ∧
      jsonReadUint64 (jsonWriteUint64 15 ++ [44]) = .ok (15, [44]) := by
  have hRest : NoDigit [44] := by
    intro c hc
    cases hc
    rfl
  have hBoth := integers_read_iff [44] hRest
  exact ⟨(hBoth.1 (-15) (by decide) (by decide)).2 (by decide), hBoth.2 15 (by decide)⟩

/-- The least number is read into a signed variable without its sign. -/
theorem not_integers_read : ¬ ∀ (n : Int) (rest : Text), -2 ^ 63 ≤ n → n < 2 ^ 63 → NoDigit rest →
    jsonReadInt64 (jsonWriteInt64 n ++ rest) = .ok (n, rest) := by
  intro hAll
  have hRest : NoDigit [] := by
    intro c hc
    cases hc
  have hRun := hAll (-2 ^ 63) [] (by decide) (by decide) hRest
  rw [jsonWriteInt64_eq (by decide) (by decide), readInt64_signedText _ hRest,
    if_neg (by decide)] at hRun
  cases hRun

end TcfAgent.JsonBuffers
