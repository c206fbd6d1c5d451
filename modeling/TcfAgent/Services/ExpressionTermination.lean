import TcfAgent.Services.ExpressionLexer

/-!
# The scanner comes to an end

Every loop of `next_sy` takes characters or has a number to count down, but for two: the one that
looks for the brace of `${…}` goes on at the zero that ends the text, and the one over the bits of
an exponent never gets rid of the sign of `INT_MIN`.

Main results:

* `run_scanWhile`, `run_strToDouble_ok`, `run_parseName` — what the loops compute;
* `nextLexeme_never`, `leaves_nextLexeme`                — the symbols that are read, and the
  others;
* `tokenize_iff`                                         — which texts come to an end.
-/

namespace TcfAgent.Expressions.Lexer

open TcfAgent.JsonText TcfAgent.Lib TcfAgent.Lib.Program

/-! ## What the loops over characters compute -/

section

variable {α : Type} {p : UInt8 → Bool} {f : α → UInt8 → α} {acc : α} {n : Nat} {t : Text}

@[simp] theorem run_peek : peek.run n t = some (.ok (textCh t), t) := rfl

@[simp] theorem run_nextCh : nextCh.run n t = some (.ok ⟨⟩, t.tail) := rfl

@[simp] theorem run_nextIf (c d : UInt8) : (nextIf c d).run n t =
    some (if textCh t = c ∨ textCh t = d then (.ok true, t.tail) else (.ok false, t)) := rfl

/-- A loop over the characters of a kind that the zero is not of. -/
theorem run_scanWhile (hZero : p 0 = false) (h : t.length < n) :
    (scanWhile p f acc).run n t = some (.ok ((t.takeWhile p).foldl f acc), t.dropWhile p) := by
  have hLoop : ∀ (t : Text) (k : Nat) (acc : α), t.length < k →
      loopFrom (fun acc => do
        let ch ← peek
        if p ch then do
          nextCh
          return .inl (f acc ch)
        else return .inr acc) n k acc t =
        some ((Except.ok ((t.takeWhile p).foldl f acc) : Except Message α), t.dropWhile p) := by
    intro t
    induction t with
    | nil =>
      intro k acc hk
      obtain ⟨k, rfl⟩ := Nat.exists_eq_succ_of_ne_zero (Nat.ne_of_gt hk)
      refine loopFrom_break ?_
      simp [textCh, hZero]
    | cons c t ih =>
      intro k acc hk
      obtain ⟨k, rfl⟩ := Nat.exists_eq_succ_of_ne_zero (Nat.ne_of_gt (Nat.zero_lt_of_lt hk))
      by_cases hc : p c = true
      · rw [List.takeWhile_cons_of_pos hc, List.dropWhile_cons_of_pos hc, List.foldl_cons]
        refine (loopFrom_continue ?_).trans (ih k _ (Nat.lt_of_succ_lt_succ hk))
        simp [textCh, hc]
      · rw [List.takeWhile_cons_of_neg hc, List.dropWhile_cons_of_neg hc]
        refine loopFrom_break ?_
        simp [textCh, hc]
  exact hLoop t n acc h

theorem run_scanDigits (h : t.length < n) :
    (scanWhile isDigit f acc).run n t =
      some (.ok ((t.takeWhile isDigit).foldl f acc), t.dropWhile isDigit) := run_scanWhile rfl h

theorem dropWhile_length (p : UInt8 → Bool) (t : Text) : (t.dropWhile p).length ≤ t.length :=
  (List.dropWhile_suffix p).length_le

theorem tail_length (t : Text) : t.tail.length ≤ t.length := (List.tail_suffix t).length_le

end

/-! ## Floating point numbers -/

/-- A sign, and what is behind it. -/
def signAt (t : Text) : Bool × Text :=
  if textCh t = 45 then (true, t.tail) else if textCh t = 43 then (false, t.tail) else (false, t)

def mantissaAt (t : Text) : Mantissa × Text :=
  let m := (t.takeWhile isDigit).foldl Mantissa.digit {}
  let rest := t.dropWhile isDigit
  if textCh rest = 46 then
    ((rest.tail.takeWhile isDigit).foldl Mantissa.fractionDigit m, rest.tail.dropWhile isDigit)
  else (m, rest)

def exponentAt (t : Text) : Int × Text :=
  if textCh t = 69 ∨ textCh t = 101 then
    let sign := signAt t.tail
    let n := (sign.2.takeWhile isDigit).foldl
      (fun n c => toInt32 (n * 10 + (c.toNat - 48 : Nat))) 0
    (if sign.1 then toInt32 (-n) else n, sign.2.dropWhile isDigit)
  else (0, t)

/-- The number that is written here, with the exponent as `str_to_double` computes it. -/
def decimalAt (t : Text) : Decimal × Text :=
  let sign := signAt (t.dropWhile isSpace)
  let m := mantissaAt sign.2
  let e := exponentAt m.2
  (⟨sign.1, m.1.val, toInt32 (e.1 - m.1.fraction)⟩, e.2)

section

variable {n : Nat} {t : Text}

theorem signAt_length (t : Text) : (signAt t).2.length ≤ t.length := by
  unfold signAt
  split
  · exact tail_length t
  · split
    · exact tail_length t
    · exact Nat.le_refl _

theorem mantissaAt_length (t : Text) : (mantissaAt t).2.length ≤ (t.dropWhile isDigit).length := by
  unfold mantissaAt
  dsimp only
  split
  · exact (dropWhile_length _ _).trans (tail_length _)
  · exact Nat.le_refl _

theorem exponentAt_length (t : Text) : (exponentAt t).2.length ≤ t.length := by
  unfold exponentAt
  split
  · exact (dropWhile_length _ _).trans ((signAt_length _).trans (tail_length t))
  · exact Nat.le_refl _

theorem run_readSign : readSign.run n t = some (.ok (signAt t).1, (signAt t).2) := by
  by_cases hMinus : textCh t = 45
  · simp [readSign, signAt, hMinus]
  · by_cases hPlus : textCh t = 43
    · simp [readSign, signAt, hPlus]
    · simp [readSign, signAt, hMinus, hPlus]

theorem run_readMantissa (h : t.length < n) :
    readMantissa.run n t = some (.ok (mantissaAt t).1, (mantissaAt t).2) := by
  have hRest : (t.dropWhile isDigit).tail.length < n :=
    Nat.lt_of_le_of_lt ((tail_length _).trans (dropWhile_length _ _)) h
  by_cases hPoint : textCh (t.dropWhile isDigit) = 46
  · simp [readMantissa, mantissaAt, hPoint, run_scanDigits h, run_scanDigits hRest]
  · simp [readMantissa, mantissaAt, hPoint, run_scanDigits h]

theorem run_readExponent (h : t.length < n) :
    readExponent.run n t = some (.ok (exponentAt t).1, (exponentAt t).2) := by
  have hRest : (signAt t.tail).2.length < n :=
    Nat.lt_of_le_of_lt ((signAt_length _).trans (tail_length t)) h
  by_cases hFound : textCh t = 69 ∨ textCh t = 101
  · simp [readExponent, exponentAt, hFound, run_readSign, run_scanDigits hRest]
  · simp [readExponent, exponentAt, hFound]

/-- The halves of a number come to 0 if it has no sign. -/
theorem run_powers {k : Int} (hSign : 0 ≤ k) (hMax : k < 2 ^ 31) (h : 32 < n) :
    (powers k).run n t = some (.ok ⟨⟩, t) := by
  have hLoop : ∀ (l : Nat) (k : Int), 0 ≤ k → k < 2 ^ l → ∀ m, l < m →
      loopFrom (fun n :
        Int => if n = 0 then return .inr ⟨⟩ else return .inl (n >>> (1 : Nat))) n m k t =
        some ((Except.ok PUnit.unit : Except Message Unit), t) := by
    intro l
    induction l with
    | zero =>
      intro k hSign hMax m hm
      obtain ⟨m, rfl⟩ := Nat.exists_eq_succ_of_ne_zero (Nat.ne_of_gt hm)
      have hZero : k = 0 := by omega
      refine loopFrom_break ?_
      simp [hZero]
    | succ l ih =>
      intro k hSign hMax m hm
      obtain ⟨m, rfl⟩ := Nat.exists_eq_succ_of_ne_zero (Nat.ne_of_gt (Nat.zero_lt_of_lt hm))
      by_cases hZero : k = 0
      · refine loopFrom_break ?_
        simp [hZero]
      · have hHalf : k >>> (1 : Nat) = k / 2 := Int.shiftRight_eq_div_pow k 1
        refine (loopFrom_continue ?_).trans
          (ih (k >>> (1 : Nat)) ?_ ?_ m (Nat.lt_of_succ_lt_succ hm))
        · simp [hZero]
        · omega
        · rw [hHalf]
          rw [pow_succ] at hMax
          omega
  exact hLoop 31 k hSign hMax n (by omega)

/-- `INT_MIN` and what is left of it have a sign for ever. -/
theorem powers_never {k : Int} (hSign : k < 0) : Never (powers k) t := by
  refine Never.loop (I := fun k _ => k < 0) hSign fun k t hk => .inr ⟨0, k >>> (1 : Nat), t, ?_, ?_⟩
  · simp [hk.ne]
  · rw [Int.shiftRight_eq_div_pow]
    omega

theorem toInt32_range (k : Int) : -2 ^ 31 ≤ toInt32 k ∧ toInt32 k < 2 ^ 31 := by
  have hLow := @Int.le_bmod k (2 ^ 32) (by decide)
  have hHigh := @Int.bmod_lt k (2 ^ 32) (by decide)
  unfold toInt32
  omega

theorem toInt32_small {k : Int} (hLow : 0 ≤ k) (hHigh : k < 2 ^ 31) : toInt32 k = k := by
  unfold toInt32
  rw [Int.bmod_eq_of_le] <;> omega

theorem decimalAt_length (t : Text) :
    (decimalAt t).2.length ≤ (((signAt (t.dropWhile isSpace)).2).dropWhile isDigit).length :=
  (exponentAt_length _).trans (mantissaAt_length _)

theorem mantissaAt_lt (h : t.length < n) :
    (signAt (t.dropWhile isSpace)).2.length < n ∧
      (mantissaAt (signAt (t.dropWhile isSpace)).2).2.length < n := by
  have hSign := (signAt_length (t.dropWhile isSpace)).trans (dropWhile_length isSpace t)
  have hMantissa := (mantissaAt_length (signAt (t.dropWhile isSpace)).2).trans
    (dropWhile_length isDigit _)
  omega

/-- The number before its exponent is taken apart. -/
theorem run_strToDouble (h : t.length < n) :
    strToDouble.run n t =
      (do
        let exponent := (decimalAt t).1.exponent
        powers (if exponent < 0 then toInt32 (-exponent) else exponent)
        return (decimalAt t).1 : Scanner Decimal).run n (decimalAt t).2 := by
  obtain ⟨hSign, hMantissa⟩ := mantissaAt_lt h
  have hSpace := @run_scanWhile _ isSpace (fun _ _ => PUnit.unit) PUnit.unit n t rfl h
  unfold strToDouble
  simp only [run_bind, hSpace, run_readSign, run_readMantissa hSign, run_readExponent hMantissa,
    Option.bind_some, andThen_ok]
  rfl

/-- `str_to_double` comes to an end, with what is behind the number. -/
theorem run_strToDouble_ok (h : t.length < n) (hMax : 32 < n)
    (hExponent : (decimalAt t).1.exponent ≠ -2 ^ 31) :
    strToDouble.run n t = some (.ok (decimalAt t).1, (decimalAt t).2) := by
  obtain ⟨hLow, hHigh⟩ := toInt32_range ((exponentAt (mantissaAt (signAt (t.dropWhile
    isSpace)).2).2).1 - (mantissaAt (signAt (t.dropWhile isSpace)).2).1.fraction)
  have hRange : -2 ^ 31 ≤ (decimalAt t).1.exponent ∧ (decimalAt t).1.exponent < 2 ^ 31 :=
    ⟨hLow, hHigh⟩
  rw [run_strToDouble h]
  dsimp only
  by_cases hSign : (decimalAt t).1.exponent < 0
  · have hAbs := @toInt32_small (-(decimalAt t).1.exponent) (by omega) (by omega)
    rw [if_pos hSign, hAbs, run_bind, run_powers (by omega) (by omega) hMax]
    rfl
  · rw [if_neg hSign, run_bind, run_powers (by omega) (by omega) hMax]
    rfl

theorem strToDouble_never (hExponent : (decimalAt t).1.exponent = -2 ^ 31) :
    Never strToDouble t := by
  have hPowers : Never (do
      let exponent := (decimalAt t).1.exponent
      powers (if exponent < 0 then toInt32 (-exponent) else exponent)
      return (decimalAt t).1 : Scanner Decimal) (decimalAt t).2 := by
    rw [hExponent]
    exact (powers_never (by decide)).bind_left
  refine never_of_large (t.length + 1) fun n hn => ?_
  rw [run_strToDouble (by omega)]
  exact hPowers n

end

/-! ## Strings -/

/-- The program ends, and where it returns no more than `k` characters are left. -/
def Leaves {α : Type} (k : Nat) (p : Scanner α) (n : Nat) (t : Text) : Prop :=
  Ends p n t (fun _ t' => t'.length ≤ k) fun _ _ => True

section

variable {α β : Type} {p : Scanner α} {q : α → Scanner β} {a : α} {c : UInt8} {k l n len : Nat}
  {start t t' : Text}

theorem leaves_ok (h : p.run n t = some (.ok a, t')) (hk : t'.length ≤ k) : Leaves k p n t :=
  ends_ok h hk

theorem leaves_pure (hk : t.length ≤ k) : Leaves k (pure a : Scanner α) n t := ends_pure hk

theorem leaves_raise (message : Message) : Leaves k (raise message : Scanner α) n t :=
  ends_raise trivial

theorem Leaves.bind (h : Leaves k p n t) (hNext : ∀ a t', t'.length ≤ k → Leaves l (q a) n t') :
    Leaves l (p >>= q) n t := Ends.bind h hNext

theorem Leaves.after (h : p.run n t = some (.ok a, t')) (hNext : Leaves l (q a) n t') :
    Leaves l (p >>= q) n t := Ends.after h hNext

theorem Leaves.le (h : Leaves k p n t) (hLe : k ≤ l) : Leaves l p n t :=
  Ends.mono h fun _ _ ht => Nat.le_trans ht hLe

theorem leaves_nextDigit {digit : UInt8 → Bool} {value : UInt8 → Nat} {message : String}
    (hk : t.length ≤ k) : Leaves k (nextDigit digit value message) n t := by
  refine .after run_peek (.after run_nextCh ?_)
  split
  · exact leaves_pure ((tail_length t).trans hk)
  · exact leaves_raise _

theorem leaves_threeDigits {digit : Scanner Nat} {f : Nat → Nat → Nat → Nat}
    (hDigit : ∀ t, t.length ≤ k → Leaves k digit n t) (hk : t.length ≤ k) :
    Leaves k (do
      let a ← digit
      let b ← digit
      let c ← digit
      return f a b c) n t :=
  (hDigit t hk).bind fun _ t ht => (hDigit t ht).bind fun _ t ht => (hDigit t ht).bind
    fun _ _ ht => leaves_pure ht

/-- A character of a string takes at least one character of the text, and is not taken at its end.
-/
theorem leaves_nextCharVal (hk : t.length ≤ k + 1) : Leaves k nextCharVal n t := by
  have hTail : t.tail.length ≤ k := by
    rw [List.length_tail]
    omega
  have hTail' : t.tail.tail.length ≤ k := (tail_length _).trans hTail
  unfold nextCharVal
  refine .after run_peek ?_
  split
  · exact leaves_raise _
  · split
    · refine .after run_nextCh (.after run_peek ?_)
      split
      · exact .after run_nextCh
          (leaves_threeDigits (fun t ht => leaves_nextDigit ht) hTail')
      · split
        · exact leaves_threeDigits (fun t ht => leaves_nextDigit ht) hTail
        · exact .after run_nextCh (leaves_pure hTail')
    · exact .after run_nextCh (leaves_pure hTail)

theorem nextCharVal_nil {Q : Nat → Text → Prop} : Ends nextCharVal n [] Q fun _ _ => True :=
  ends_error rfl trivial

/-- The loop up to a quote takes characters, and the zero raises an exception. -/
theorem ends_countQuoted (h : t.length < n) :
    Ends countQuoted n t (fun len t' => len + t'.length ≤ t.length) fun _ _ => True := by
  refine Ends.loop (I := fun len t' => len + t'.length ≤ t.length) (fun _ t => t.length)
    (Nat.le_of_eq (Nat.zero_add _)) h fun len u hu => ?_
  refine Ends.after run_peek ?_
  split
  · exact ends_pure hu
  · refine Ends.bind (Q := fun _ u' => u'.length < u.length) ?_ fun _ u' hu' => ends_pure ?_
    · cases u with
      | nil => exact nextCharVal_nil
      | cons c u =>
        refine (leaves_nextCharVal (k := u.length) (Nat.le_refl _)).mono fun _ u' hu' => ?_
        exact Nat.lt_succ_of_le hu'
    · refine ⟨?_, hu'⟩
      omega

theorem leaves_copyChar (inQuotes : Bool) (hk : t.length ≤ k) :
    Leaves k (copyChar inQuotes) n t := by
  unfold copyChar
  split
  · exact leaves_nextCharVal (Nat.le_succ_of_le hk)
  · exact .after run_peek (.after run_nextCh (leaves_pure ((tail_length t).trans hk)))

/-- The loop that copies counts up to a number it knows. -/
theorem leaves_setStringTextVal (inQuotes : Bool) (hLen : len < n) (charSize : Nat) :
    Leaves start.length (setStringTextVal start len inQuotes charSize) n t := by
  refine .after (run_modify _ _ _) (Leaves.bind (k := start.length) ?_
    fun _ _ ht => leaves_pure ht)
  refine Ends.loop (I := fun acc t => t.length ≤ start.length ∧ acc.1 ≤ len)
    (fun acc _ => len - acc.1) ⟨Nat.le_refl _, Nat.zero_le _⟩ (by simpa using hLen) ?_
  rintro ⟨cnt, value⟩ t ⟨ht, hCnt⟩
  split
  · next hLess =>
    refine Ends.bind (leaves_copyChar inQuotes ht) fun ch t' ht' => ends_pure ?_
    exact ⟨⟨ht', hLess⟩, by dsimp only; omega⟩
  · exact ends_pure ht

/-- A string between quotes: the first loop has counted the characters for the second one. -/
theorem leaves_parseQuoted {charSize : Nat} (h : t.length < n) :
    Leaves t.length (parseQuoted charSize) n t := by
  refine .after (run_get _ _) (Ends.bind (ends_countQuoted h) fun len u hu => ?_)
  refine (leaves_setStringTextVal true (by omega) charSize).bind fun value u hu => ?_
  exact .after run_nextCh (leaves_pure ((tail_length u).trans hu))

theorem leaves_parseStringValue {wide : Bool} (h : t.length < n) :
    Leaves t.length (parseStringValue wide) n t :=
  (leaves_parseQuoted h).bind fun _ _ hu => leaves_pure hu

theorem leaves_nextIf {c d : UInt8} (hk : t.length ≤ k) : Leaves k (nextIf c d) n t := by
  by_cases hIf : textCh t = c ∨ textCh t = d
  · exact leaves_ok (run_nextIf c d |>.trans (congrArg some (if_pos hIf)))
      ((tail_length t).trans hk)
  · exact leaves_ok (run_nextIf c d |>.trans (congrArg some (if_neg hIf))) hk

theorem leaves_parseCharValue {wide : Bool} (hk : t.length ≤ k) :
    Leaves k (parseCharValue wide) n t := by
  refine (leaves_nextCharVal (Nat.le_succ_of_le hk)).bind fun value u hu => ?_
  refine (leaves_nextIf hu).bind fun closed u hu => ?_
  split
  · exact leaves_pure hu
  · exact leaves_raise _

theorem leaves_parseQuotedName (h : t.length < n) :
    Leaves t.length parseQuotedName n t := by
  refine (leaves_nextCharVal (Nat.le_succ t.length)).bind fun _ u hu => ?_
  refine ((leaves_parseQuoted (Nat.lt_of_le_of_lt hu h)).le hu).bind fun value u hu => ?_
  exact leaves_pure hu

/-! ## Names in braces -/

theorem textCh_ne_brace (h : 125 ∉ t) : textCh t ≠ 125 := by
  cases t with
  | nil => decide
  | cons c t =>
    intro hc
    have hHead : c = 125 := hc
    exact h (List.mem_cons.2 (.inl hHead.symm))

/-- Without a brace the loop stays at the zero. -/
theorem countBraced_never (h : 125 ∉ t) : Never countBraced t := by
  refine Never.loop (I := fun _ t => 125 ∉ t) h fun len t ht => .inr ⟨0, len + 1, t.tail, ?_, ?_⟩
  · simp [textCh_ne_brace ht]
  · exact fun hMem => ht (List.mem_of_mem_tail hMem)

/-- With one it finds it. -/
theorem ends_countBraced (hBrace : 125 ∈ t) (h : t.length < n) :
    Ends countBraced n t (fun len t' => len + t'.length ≤ t.length) fun _ _ => True := by
  refine Ends.loop (I := fun len t' => len + t'.length ≤ t.length ∧ 125 ∈ t') (fun _ t => t.length)
    ⟨Nat.le_of_eq (Nat.zero_add _), hBrace⟩ h ?_
  rintro len u ⟨hu, hMem⟩
  refine Ends.after run_peek ?_
  split
  · exact ends_pure hu
  · next hNot =>
    obtain ⟨c, u, rfl⟩ := List.exists_cons_of_ne_nil (List.ne_nil_of_mem hMem)
    have hTail : 125 ∈ u := (List.mem_cons.1 hMem).resolve_left (Ne.symm hNot)
    rw [List.length_cons] at hu
    refine Ends.after run_nextCh (ends_pure ⟨⟨?_, hTail⟩, Nat.lt_succ_self _⟩)
    rw [List.tail_cons]
    omega

theorem leaves_parseId (hBrace : 125 ∈ t.tail) (h : t.length < n) :
    Leaves t.length parseId n t := by
  have hTail := tail_length t
  refine .after run_nextCh (.after (run_get _ _) (Ends.bind (ends_countBraced hBrace (by omega))
    fun len u hu => ?_))
  refine ((leaves_setStringTextVal false (by omega) 1).le hTail).bind fun value u hu => ?_
  exact .after run_nextCh (leaves_pure ((tail_length u).trans hu))

theorem parseId_never (hBrace : 125 ∉ t.tail) : Never parseId t :=
  Never.bind (n := 0) run_nextCh (Never.bind (n := 0) (run_get _ _)
    (countBraced_never hBrace).bind_left)

/-! ## Names -/

/-- Characters that are not in quotes are copied as they are. -/
theorem run_setStringTextVal {charSize : Nat} (hLen : len ≤ start.length) (h : len < n) :
    (setStringTextVal start len false charSize).run n t =
      some (.ok ((start.take len).flatMap (fun c => elementBytes charSize c.toNat) ++
        elementBytes charSize 0), start.drop len) := by
  have hLoop : ∀ (r cnt k : Nat) (value u : Text), cnt + r = len → r ≤ u.length → r < k →
      loopFrom (fun (acc : Nat × Text) =>
        if acc.1 < len then do
          let ch ← copyChar false
          return .inl (acc.1 + 1, acc.2 ++ elementBytes charSize ch)
        else return .inr acc.2) n k (cnt, value) u =
        some ((Except.ok (value ++ (u.take r).flatMap fun c => elementBytes charSize c.toNat) :
          Except Message Text), u.drop r) := by
    intro r
    induction r with
    | zero =>
      intro cnt k value u hCnt hu hk
      obtain ⟨k, rfl⟩ := Nat.exists_eq_succ_of_ne_zero (Nat.ne_of_gt hk)
      refine loopFrom_break ?_
      have hNot : ¬ cnt < len := by omega
      simp [hNot]
    | succ r ih =>
      intro cnt k value u hCnt hu hk
      obtain ⟨k, rfl⟩ := Nat.exists_eq_succ_of_ne_zero (Nat.ne_of_gt (Nat.zero_lt_of_lt hk))
      obtain ⟨c, u, rfl⟩ := List.exists_cons_of_length_pos (Nat.lt_of_lt_of_le (Nat.succ_pos r) hu)
      have hLess : cnt < len := by omega
      refine (loopFrom_continue (t := u)
        (c := (cnt + 1, value ++ elementBytes charSize c.toNat)) ?_).trans ?_
      · simp [hLess, copyChar, textCh]
      · rw [ih (cnt + 1) k _ u (by omega) (Nat.le_of_succ_le_succ hu) (Nat.lt_of_succ_lt_succ hk)]
        simp
  have hCopy : (loop (fun (acc : Nat × Text) =>
      if acc.1 < len then do
        let ch ← copyChar false
        return .inl (acc.1 + 1, acc.2 ++ elementBytes charSize ch)
      else return .inr acc.2) (0, []) : Scanner Text).run n start = _ :=
    hLoop len 0 n [] start (Nat.zero_add len) hLen h
  unfold setStringTextVal
  simp only [run_bind, run_modify, Option.bind_some, andThen_ok, hCopy, run_pure, List.nil_append]

theorem foldl_count (a : Nat) (s : Text) : s.foldl (fun len _ => len + 1) a = a + s.length := by
  induction s generalizing a with
  | nil => rfl
  | cons c s ih =>
    rw [List.foldl_cons, ih, List.length_cons]
    omega

theorem elementBytes_one (c : UInt8) : elementBytes 1 c.toNat = [c] := by
  simp [elementBytes]

theorem takeWhile_zero {name : Text} (h : ∀ c ∈ name, c ≠ 0) :
    (name ++ elementBytes 1 0).takeWhile (· ≠ 0) = name := by
  rw [List.takeWhile_append_of_pos fun c hc => decide_eq_true (h c hc)]
  exact List.append_nil _

/-- A name is copied, up to a character that is not of one. -/
theorem run_parseName (hName : isNameCharacter c = true) (h : t.length + 1 < n) :
    (parseName (c :: t)).run n t =
      some (.ok (.sy (if c :: t.takeWhile isNameCharacter = ascii "sizeof" then .sizeof
        else .name (c :: t.takeWhile isNameCharacter))), t.dropWhile isNameCharacter) := by
  have hCount := @run_scanWhile _ isNameCharacter (fun len _ => len + 1) 1 n t rfl (by omega)
  rw [foldl_count, Nat.add_comm] at hCount
  have hPrefix := List.takeWhile_append_dropWhile (p := isNameCharacter) (l := t)
  have hLength := congrArg List.length hPrefix
  rw [List.length_append] at hLength
  have hCopy := @run_setStringTextVal n ((t.takeWhile isNameCharacter).length + 1) (c :: t)
    (t.dropWhile isNameCharacter) 1 (by rw [List.length_cons]; omega) (by omega)
  have hTake := @List.take_left _ (t.takeWhile isNameCharacter) (t.dropWhile isNameCharacter)
  have hDrop := @List.drop_left _ (t.takeWhile isNameCharacter) (t.dropWhile isNameCharacter)
  rw [hPrefix] at hTake hDrop
  have hZero : ∀ d ∈ c :: t.takeWhile isNameCharacter, d ≠ 0 := by
    intro d hd hEq
    have hBad : isNameCharacter d = true := by
      rcases List.mem_cons.1 hd with rfl | hd
      · exact hName
      · exact List.mem_takeWhile_imp hd
    rw [hEq] at hBad
    cases hBad
  simp only [List.take_succ_cons, List.drop_succ_cons, hTake, hDrop, elementBytes_one,
    List.flatMap_singleton'] at hCopy
  unfold parseName
  simp only [run_bind, hCount, Option.bind_some, andThen_ok, hCopy, run_pure, takeWhile_zero hZero]

/-! ## Numbers -/

theorem decimalAt_digit (hDigit : isDigit c = true) :
    (decimalAt (c :: t)).2.length ≤ t.length := by
  have hMinus : c ≠ 45 := by
    rintro rfl
    cases hDigit
  have hPlus : c ≠ 43 := by
    rintro rfl
    cases hDigit
  have hSpace : isSpace c = false := by
    simp only [isDigit, isSpace, Bool.and_eq_true, decide_eq_true_eq, Bool.or_eq_false_iff,
      Bool.and_eq_false_iff, decide_eq_false_iff_not, UInt8.le_iff_toNat_le, UInt8.reduceToNat]
      at hDigit ⊢
    refine ⟨?_, .inr (by omega)⟩
    rintro rfl
    exact absurd hDigit.1 (by decide)
  have hLength := decimalAt_length (c :: t)
  have hSign : signAt (c :: t) = (false, c :: t) := by
    simp [signAt, textCh, hMinus, hPlus]
  rw [List.dropWhile_cons_of_neg (by rw [hSpace]; decide), hSign,
    List.dropWhile_cons_of_pos hDigit] at hLength
  exact hLength.trans (dropWhile_length _ _)

/-- The number is read from its first digit on. -/
theorem leaves_parseFpNumber (hDigit : isDigit c = true) (h : start.length + 1 < n) (hMax : 32 < n)
    (hExponent : (decimalAt (c :: start)).1.exponent ≠ -2 ^ 31) :
    Leaves start.length (parseFpNumber (c :: start)) n t := by
  have hRest := @decimalAt_digit c start hDigit
  refine .after (run_modify _ _ _) (.after (run_strToDouble_ok h hMax hExponent) ?_)
  refine (leaves_nextIf hRest).bind fun single u hu => ?_
  split
  · exact leaves_pure hu
  · exact (leaves_nextIf hu).bind fun _ _ hu => leaves_pure hu

theorem parseFpNumber_never (hExponent : (decimalAt start).1.exponent = -2 ^ 31) :
    Never (parseFpNumber start) t :=
  Never.bind (n := 0) (run_modify _ _ _) (strToDouble_never hExponent).bind_left

theorem leaves_scanWhile {α : Type} {p : UInt8 → Bool} {f : α → UInt8 → α} {acc : α}
    (hZero : p 0 = false) (h : t.length < n) (hk : t.length ≤ k) :
    Leaves k (scanWhile p f acc) n t :=
  leaves_ok (run_scanWhile hZero h) ((dropWhile_length p t).trans hk)

theorem leaves_scanSuffix {flags : Flags} (h : t.length < n) (hk : t.length ≤ k) :
    Leaves k (scanSuffix flags) n t := leaves_scanWhile rfl h hk

/-- A number that starts with 0; a floating point number has an exponent that can be taken apart. -/
theorem leaves_parseZero (h : t.length + 1 < n) (hMax : 32 < n)
    (hExponent : isReal t = true → (decimalAt (48 :: t)).1.exponent ≠ -2 ^ 31) :
    Leaves t.length (parseZero (48 :: t)) n t := by
  refine .after (run_get _ _) ?_
  split
  · next hReal => exact leaves_parseFpNumber rfl h hMax (hExponent hReal)
  · have hNumber {α : Type} {p : UInt8 → Bool} {f : α → UInt8 → α} {acc : α} (hZero : p 0 = false)
        {flags : α → Flags} {value : α → Flags → Lexeme} {u : Text} (hu : u.length ≤ t.length) :
        Leaves t.length (do
          let x ← scanWhile p f acc
          let flags ← scanSuffix (flags x)
          return value x flags) n u :=
      (leaves_scanWhile hZero (by omega) hu).bind fun _ u hu =>
        (leaves_scanSuffix (by omega) hu).bind fun _ u hu => leaves_pure hu
    refine (leaves_nextIf (Nat.le_refl _)).bind fun hex u hu => ?_
    split
    · exact hNumber rfl hu
    · exact hNumber rfl hu

theorem leaves_parseDecimal (hDigit : isDigit c = true) (h : t.length + 1 < n) (hMax : 32 < n)
    (hExponent : isReal (t.dropWhile isDigit) = true →
      (decimalAt (c :: t)).1.exponent ≠ -2 ^ 31) :
    Leaves t.length (parseDecimal c (c :: t)) n t := by
  have hRest := dropWhile_length isDigit t
  refine .after (run_scanDigits (by omega)) (.after (run_get _ _) ?_)
  split
  · next hReal => exact leaves_parseFpNumber hDigit h hMax (hExponent hReal)
  · exact (leaves_scanSuffix (by omega) hRest).bind fun _ u hu => leaves_pure hu

theorem parseZero_never (hReal : isReal t = true)
    (hExponent : (decimalAt start).1.exponent = -2 ^ 31) : Never (parseZero start) t := by
  refine Never.bind (n := 0) (run_get _ _) ?_
  rw [if_pos hReal]
  exact parseFpNumber_never hExponent

theorem parseDecimal_never (hReal : isReal (t.dropWhile isDigit) = true)
    (hExponent : (decimalAt start).1.exponent = -2 ^ 31) : Never (parseDecimal c start) t := by
  refine Never.bind (n := t.length + 1) (run_scanDigits (Nat.lt_succ_self _))
    (Never.bind (n := 0) (run_get _ _) ?_)
  rw [if_pos hReal]
  exact parseFpNumber_never hExponent

end

/-! ## Symbols -/

/-- `${` without a brace behind it. -/
def Unclosed (t : Text) : Prop := ∃ rest, t = 36 :: 123 :: rest ∧ 125 ∉ rest

/-- A floating point number: after the digits comes a point, an exponent or an `f`. After a 0 there
are none. -/
def IsReal (t : Text) : Prop :=
  ∃ c rest, t = c :: rest ∧ isDigit c = true ∧
    isReal (if c = 48 then rest else rest.dropWhile isDigit) = true

/-- What a symbol may not be for `next_sy` to come back from it: a `${` without a brace, or a
floating point number whose exponent is `INT_MIN` for the code. -/
def Endless (t : Text) : Prop := Unclosed t ∨ (IsReal t ∧ (decimalAt t).1.exponent = -2 ^ 31)

section

variable {c : UInt8} {n : Nat} {t : Text}

theorem cons_of_textCh (h : textCh t = c) (hc : c ≠ 0) : t = c :: t.tail := by
  cases t with
  | nil => exact absurd h.symm hc
  | cons d t =>
    have hSame : d = c := h
    rw [hSame, List.tail_cons]

variable {short : Sy × Text}

theorem ifNext_length {longer : Text → Sy × Text}
    (hLonger : ∀ u : Text, u.length ≤ t.length → (longer u).2.length ≤ t.length)
    (hShort : short.2.length ≤ t.length) : (ifNext c longer short t).2.length ≤ t.length := by
  cases t with
  | nil => exact hShort
  | cons d t =>
    rw [ifNext]
    split
    · exact hLonger t (Nat.le_succ _)
    · exact hShort

/-- A symbol of signs, and one of two or three of them. -/
theorem ifNext_one {sy sy' : Sy} : (ifNext c (sy, ·) (sy', t) t).2.length ≤ t.length :=
  ifNext_length (fun _ hu => hu) (Nat.le_refl _)

theorem ifNext_or {sy : Sy} (hShort : short.2.length ≤ t.length) :
    (ifNext c (sy, ·) short t).2.length ≤ t.length :=
  ifNext_length (fun _ hu => hu) hShort

theorem ifNext_then {d : UInt8} {sy sy' : Sy}
    (hShort : short.2.length ≤ t.length) :
    (ifNext c (fun u => ifNext d (sy, ·) (sy', u) u) short t).2.length ≤ t.length :=
  ifNext_length (fun _ hu => ifNext_one.trans hu) hShort

/-- What is read leaves no more than there was. -/
def Keeps (t : Text) (r : Except Message (Sy × Text)) : Prop :=
  ∀ x, r = .ok x → x.2.length ≤ t.length

theorem keeps_ok {x : Sy × Text} (h : x.2.length ≤ t.length) : Keeps t (.ok x) := by
  intro y hy
  rw [← Except.ok.inj hy]
  exact h

theorem keeps_error (message : Message) : Keeps t (.error message) := by
  intro y hy
  cases hy

theorem Keeps.ite {p : Prop} [Decidable p] {r r' : Except Message (Sy × Text)} (h : Keeps t r)
    (h' : Keeps t r') : Keeps t (if p then r else r') := by
  by_cases hp : p
  · rwa [if_pos hp]
  · rwa [if_neg hp]

theorem keeps_nextSymbol (hZero : c ≠ 48) (hDigit : isDigit c ≠ true) :
    Keeps t (nextSymbol noSymbols c t) := by
  unfold nextSymbol
  rw [if_neg hZero, if_neg hDigit]
  refine .ite (keeps_ok (Nat.le_refl _)) ?_
  -- . : - +
  refine .ite (keeps_ok ifNext_one) (.ite (keeps_ok ifNext_one) ?_)
  refine .ite (keeps_ok (ifNext_then (ifNext_or ifNext_one))) ?_
  refine .ite (keeps_ok (ifNext_or ifNext_one)) ?_
  -- < > = !
  refine .ite (keeps_ok (ifNext_then ifNext_one)) (.ite (keeps_ok (ifNext_then ifNext_one)) ?_)
  refine .ite (keeps_ok ifNext_one) (.ite (keeps_ok ifNext_one) ?_)
  -- & | * / % ^
  refine .ite (keeps_ok (ifNext_or ifNext_one)) (.ite (keeps_ok (ifNext_or ifNext_one)) ?_)
  refine .ite (keeps_ok ifNext_one) (.ite (keeps_ok ifNext_one) ?_)
  refine .ite (keeps_ok ifNext_one) (.ite (keeps_ok ifNext_one) ?_)
  refine .ite (keeps_error _) (.ite (keeps_ok ?_) (keeps_error _))
  exact dropWhile_length _ _

theorem run_parseSign_ok {x : Sy × Text} (h : nextSymbol noSymbols c t = .ok x) :
    (parseSign c).run n t = some (.ok (.sy x.1), x.2) := by
  rw [parseSign, run_plain, h]

theorem run_parseSign_error {message : Message} (h : nextSymbol noSymbols c t = .error message) :
    (parseSign c).run n t = some (.error message, t) := by
  rw [parseSign, run_plain, h]

theorem leaves_parseSign (hZero : c ≠ 48) (hDigit : isDigit c ≠ true) :
    Leaves t.length (parseSign c) n t := by
  cases hNext : nextSymbol noSymbols c t with
  | ok x => exact leaves_ok (run_parseSign_ok hNext) (keeps_nextSymbol hZero hDigit x hNext)
  | error message => exact ends_error (run_parseSign_error hNext) trivial

/-- A symbol that is not endless is read, and takes its first character at least. -/
theorem leaves_nextLexeme (hEnds : ¬ Endless (c :: t)) (h : t.length + 1 < n) (hMax : 32 < n) :
    Leaves t.length (nextLexeme c) n t := by
  have hReal (hIs : isDigit c = true)
      (hReal : isReal (if c = 48 then t else t.dropWhile isDigit) = true) :
      (decimalAt (c :: t)).1.exponent ≠ -2 ^ 31 := fun hExponent =>
    hEnds (.inr ⟨⟨c, t, rfl, hIs, hReal⟩, hExponent⟩)
  refine .after (run_get _ _) ?_
  split
  · exact leaves_parseCharValue (Nat.le_refl _)
  split
  · exact leaves_parseStringValue (by omega)
  split
  · next hZero =>
    rw [hZero] at hReal ⊢
    exact leaves_parseZero h hMax fun hIs => hReal rfl (by rwa [if_pos rfl])
  split
  · next hZero hDigit =>
    refine leaves_parseDecimal hDigit h hMax fun hIs => hReal hDigit ?_
    rwa [if_neg hZero]
  split
  · exact leaves_parseQuotedName (by omega)
  split
  · next hBrace =>
    obtain ⟨rfl, hBrace⟩ := hBrace
    refine leaves_parseId ?_ (by omega)
    by_contra hNot
    exact hEnds (.inl ⟨t.tail, congrArg _ (cons_of_textCh hBrace (by decide)), hNot⟩)
  split
  · exact .after run_nextCh (leaves_parseCharValue (tail_length t))
  split
  · have hTail := tail_length t
    exact .after run_nextCh ((leaves_parseStringValue (by omega)).le hTail)
  split
  · next hName => exact leaves_ok (run_parseName hName h) (dropWhile_length _ _)
  · next hZero hDigit _ _ _ _ _ => exact leaves_parseSign hZero hDigit

theorem Endless.first (h : Endless t) : ∃ c rest, t = c :: rest ∧ c ≠ 0 := by
  rcases h with ⟨rest, hText, -⟩ | ⟨⟨c, rest, hText, hDigit, -⟩, -⟩
  · exact ⟨36, 123 :: rest, hText, by decide⟩
  · refine ⟨c, rest, hText, ?_⟩
    rintro rfl
    cases hDigit

/-- An endless symbol is never read. -/
theorem nextLexeme_never (h : Endless (c :: t)) : Never (nextLexeme c) t := by
  refine Never.bind (n := 0) (run_get _ _) ?_
  rcases h with ⟨rest, hText, hBrace⟩ | ⟨⟨d, rest, hText, hDigit, hReal⟩, hExponent⟩
  · obtain ⟨rfl, rfl⟩ := List.cons.inj hText
    have hOpen : textCh (123 :: rest) = 123 := rfl
    rw [if_neg (by decide), if_neg (by decide), if_neg (by decide), if_neg (by decide), hOpen,
      if_neg (by decide), if_pos (by decide)]
    exact parseId_never hBrace
  · obtain ⟨rfl, rfl⟩ := List.cons.inj hText
    have hNot : c ≠ 39 ∧ c ≠ 34 := by
      constructor
      · rintro rfl
        cases hDigit
      · rintro rfl
        cases hDigit
    rw [if_neg hNot.1, if_neg hNot.2]
    by_cases hZero : c = 48
    · rw [if_pos hZero] at hReal ⊢
      exact parseZero_never hReal hExponent
    · rw [if_neg hZero] at hReal ⊢
      rw [if_pos hDigit]
      exact parseDecimal_never hReal hExponent

theorem run_blanks (h : t.length < n) :
    (scanWhile isBlank (fun _ _ => PUnit.unit) PUnit.unit).run n t =
      some (.ok ⟨⟩, t.dropWhile isBlank) := run_scanWhile rfl h

theorem nextSy_never (h : Endless (t.dropWhile isBlank)) : Never nextSy t := by
  refine Never.bind (run_blanks (Nat.lt_succ_self _)) ?_
  obtain ⟨c, rest, hText, hc⟩ := h.first
  rw [hText] at h ⊢
  refine Never.bind (n := 0) run_peek ?_
  have hCh : textCh (c :: rest) = c := rfl
  rw [hCh, if_neg hc]
  exact Never.bind (n := 0) run_nextCh (nextLexeme_never h)

/-- A symbol that is not the end takes characters. -/
theorem ends_nextSy (hEnds : ¬ Endless (t.dropWhile isBlank)) (h : t.length + 32 < n) :
    Ends nextSy n t (fun lexeme t' => lexeme ≠ .sy .eof → t'.length < t.length)
      fun _ _ => True := by
  refine Ends.after (run_blanks (by omega)) ?_
  have hBlank := dropWhile_length isBlank t
  cases hText : t.dropWhile isBlank with
  | nil =>
    refine Ends.after run_peek ?_
    exact ends_pure fun hEof => absurd rfl hEof
  | cons c rest =>
    rw [hText] at hEnds hBlank
    rw [List.length_cons] at hBlank
    refine Ends.after run_peek ?_
    split
    · exact ends_pure fun hEof => absurd rfl hEof
    · refine Ends.after run_nextCh ?_
      refine (leaves_nextLexeme hEnds (by omega) (by omega)).mono fun lexeme t' ht _ => ?_
      exact Nat.lt_of_lt_of_le (Nat.lt_succ_of_le ht) hBlank

/-! ## Texts -/

/-- `text_len` is the length of the string up to its zero. -/
def textOf (s : Text) : Text := s.takeWhile (· ≠ 0)

/-- What is left of a text after some of its symbols, when none of them is its end. -/
inductive Reached (text : Text) : Text → Prop where
  | start : Reached text text
  | next {t t' : Text} {n : Nat} {lexeme : Lexeme} : Reached text t →
      nextSy.run n t = some (.ok lexeme, t') → lexeme ≠ .sy .eof → Reached text t'

/-- The scanner comes to the end of the text or raises an exception, and no loop on the way takes
more rounds than the text has characters, but for the one over the 32 bits of an exponent. -/
def Terminates (text : Text) : Prop :=
  Ends tokenize (text.length + 33) text (fun _ _ => True) fun _ _ => True

theorem run_nextToken {t' : Text} {lexeme : Lexeme} (lexemes : List Lexeme)
    (hRun : nextSy.run n t = some (.ok lexeme, t')) (hEof : lexeme ≠ .sy .eof) :
    (nextToken lexemes).run n t = some (.ok (.inl (lexemes ++ [lexeme])), t') := by
  simp [nextToken, hRun, hEof]

/-- What comes to an endless symbol does not end. -/
theorem tokenize_never {text : Text} (hReached : Reached text t)
    (hEndless : Endless (t.dropWhile isBlank)) : Never tokenize text := by
  have hFrom : ∀ lexemes, Never (loop nextToken lexemes) t := by
    intro lexemes
    refine Never.loop (I := fun _ u => u = t) rfl fun lexemes u hu => .inl ?_
    rw [hu]
    exact (nextSy_never hEndless).bind_left
  have hBack : ∀ {t}, Reached text t → (∀ lexemes, Never (loop nextToken lexemes) t) →
      ∀ lexemes, Never (loop nextToken lexemes) text := by
    intro t hReached
    induction hReached with
    | start => exact id
    | next hReached hRun hEof ih =>
      intro hNever
      exact ih fun lexemes => .loop_next (run_nextToken lexemes hRun hEof) (hNever _)
  exact hBack hReached hFrom []

/-- A text comes to an end exactly if no `${` without a brace and no floating point number with the
exponent `INT_MIN` is reached. -/
theorem tokenize_iff (s : Text) :
    Terminates (textOf s) ↔ ∀ t, Reached (textOf s) t → ¬ Endless (t.dropWhile isBlank) := by
  constructor
  · intro hTerminates t hReached hEndless
    exact hTerminates.not_never (tokenize_never hReached hEndless)
  · intro hEnds
    refine Ends.loop (I := fun _ t => Reached (textOf s) t ∧ t.length ≤ (textOf s).length)
      (fun _ t => t.length) ⟨.start, Nat.le_refl _⟩ (by omega) ?_
    rintro lexemes t ⟨hReached, hLength⟩
    obtain ⟨r, t', hRun, hOk, -⟩ :=
      @ends_nextSy ((textOf s).length + 33) t (hEnds t hReached) (by omega)
    cases r with
    | error message => exact ends_error (run_bind_error hRun) trivial
    | ok lexeme =>
      refine Ends.after hRun ?_
      by_cases hEof : lexeme = .sy .eof
      · rw [if_pos hEof]
        exact ends_pure trivial
      · rw [if_neg hEof]
        have hLess := hOk lexeme rfl hEof
        exact ends_pure ⟨⟨.next hReached hRun hEof, by omega⟩, hLess⟩

/-- The scanner does not come back from `${a`. -/
theorem not_terminates : ¬ ∀ s : Text, Terminates (textOf s) := by
  intro hAll
  have hText : textOf (ascii "$\x7ba") = [36, 123, 97] := by decide
  have hNever : Never tokenize (textOf (ascii "$\x7ba")) := by
    rw [hText]
    exact tokenize_never .start (.inl ⟨[97], rfl, by decide⟩)
  exact (hAll (ascii "$\x7ba")).not_never hNever

end

end TcfAgent.Expressions.Lexer
