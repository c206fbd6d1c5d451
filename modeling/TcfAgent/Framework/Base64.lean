import TcfAgent.Framework.JsonBuffers

/-!
# BASE64

`framework/base64.c`: three bytes are four characters, with `=` where a byte is missing in the end.
The reader stops in front of the first character outside of the alphabet, behind a group with `=`,
and where another group would not fit.

Main results

* `char2int_int2char`  — the tables are inverse to each other
* `writeBase64_eq`     — what is written is the encoding of the bytes
* `readBase64_write`   — what has been written is read group by group
-/

namespace TcfAgent.JsonBuffers

open TcfAgent.Lib TcfAgent.JsonText

/-! ## Tables -/

/-- `int2char` -/
def int2charTable : Text :=
  ascii "ABCDEFGHIJKLMNOPQRSTUVWXYZabcdefghijklmnopqrstuvwxyz0123456789+/"

def int2char (n : Nat) : UInt8 := int2charTable.getD n 0

/-- `char2int` -/
def char2intTable : List Int :=
  [-1, -1, -1, -1, -1, -1, -1, -1, -1, -1, -1, -1, -1, -1, -1, -1,
    -1, -1, -1, -1, -1, -1, -1, -1, -1, -1, -1, -1, -1, -1, -1, -1,
    -1, -1, -1, -1, -1, -1, -1, -1, -1, -1, -1, 62, -1, -1, -1, 63,
    52, 53, 54, 55, 56, 57, 58, 59, 60, 61, -1, -1, -1, -1, -1, -1,
    -1, 0, 1, 2, 3, 4, 5, 6, 7, 8, 9, 10, 11, 12, 13, 14,
    15, 16, 17, 18, 19, 20, 21, 22, 23, 24, 25, -1, -1, -1, -1, -1,
    -1, 26, 27, 28, 29, 30, 31, 32, 33, 34, 35, 36, 37, 38, 39, 40,
    41, 42, 43, 44, 45, 46, 47, 48, 49, 50, 51]

/-- `ch < 0 || ch >= ch_max || (n = char2int[ch]) < 0`, of the next character or the end. -/
def char2int (ch : Option UInt8) : Option Nat := do
  let n ← char2intTable[(← ch).toNat]?
  if n < 0 then none else some n.toNat

/-- The characters of the alphabet, by their numbers. -/
def alphabet : List Nat :=
  List.range' 65 26 ++ List.range' 97 26 ++ List.range' 48 10 ++ [43, 47]

theorem int2charTable_eq : int2charTable = alphabet.map UInt8.ofNat := rfl

theorem alphabet_plain : ∀ n ∈ alphabet, n < 256 ∧ n ≠ 34 ∧ n ≠ 61 ∧ n ≠ 92 := by decide

theorem char2intTable_alphabet : ∀ m < 64, char2intTable[alphabet.getD m 0]? = some
    (Int.ofNat m) := by
  decide

/-- A character of the table, and a zero behind it. -/
theorem int2char_toNat (n : Nat) : (int2char n).toNat = alphabet.getD n 0 := by
  unfold int2char
  rw [int2charTable_eq, List.getD_eq_getElem?_getD, List.getD_eq_getElem?_getD, List.getElem?_map]
  cases hGet : alphabet[n]? with
  | none => rfl
  | some m =>
    have hLt := (alphabet_plain m (List.mem_of_getElem? hGet)).1
    exact UInt8.toNat_ofNat_of_lt' hLt

theorem alphabet_getD_plain (n : Nat) :
    alphabet.getD n 0 ≠ 34 ∧ alphabet.getD n 0 ≠ 61 ∧ alphabet.getD n 0 ≠ 92 := by
  rw [List.getD_eq_getElem?_getD]
  cases hGet : alphabet[n]? with
  | none => decide
  | some m => exact (alphabet_plain m (List.mem_of_getElem? hGet)).2

theorem int2char_ne_of_toNat {n : Nat} {c : UInt8} (h : alphabet.getD n 0 ≠ c.toNat) :
    int2char n ≠ c := by
  intro hEq
  rw [← int2char_toNat, hEq] at h
  exact h rfl

theorem char2int_int2char {n : Nat} (h : n < 64) : char2int (some (int2char n)) = some n := by
  unfold char2int
  simp only [Option.bind_eq_bind, Option.bind_some, int2char_toNat, char2intTable_alphabet n h]
  exact if_neg (by simp)

theorem int2char_ne (n : Nat) : int2char n ≠ 61 :=
  int2char_ne_of_toNat (alphabet_getD_plain n).2.1

theorem int2char_plain (n : Nat) : int2char n ≠ 34 ∧ int2char n ≠ 92 :=
  ⟨int2char_ne_of_toNat (alphabet_getD_plain n).1, int2char_ne_of_toNat (alphabet_getD_plain n).2.2⟩

/-! ## Groups -/

/-- `write_base64` -/
def writeBase64 : List UInt8 → Text
  | b0 :: b1 :: b2 :: data =>
    int2char (b0.toNat / 4) :: int2char (b0.toNat * 16 % 64 ||| b1.toNat / 16) ::
      int2char (b1.toNat * 4 % 64 ||| b2.toNat / 64) :: int2char (b2.toNat % 64) :: writeBase64 data
  | [b0, b1] =>
    [int2char (b0.toNat / 4), int2char (b0.toNat * 16 % 64 ||| b1.toNat / 16),
      int2char (b1.toNat * 4 % 64), 61]
  | [b0] => [int2char (b0.toNat / 4), int2char (b0.toNat * 16 % 64), 61, 61]
  | [] => []

/-- The loop of `read_base64`: `buf` is what has been stored of `bufSize` bytes. -/
def readGroups (bufSize : Nat) : (fuel : Nat) → (buf : Text) → Text → Result (Text × Text)
  | 0, buf, text => .ok (buf, text)
  | fuel + 1, buf, text =>
    if bufSize < buf.length + 3 then .ok (buf, text)
    else
      match char2int text.head? with
      | none => .ok (buf, text)
      | some n0 =>
        match char2int text.tail.head? with
        | none => .error (.raise .base64)
        | some n1 =>
          if text.tail.tail.head? = some 61 then
            .ok (buf ++ [UInt8.ofNat (n0 * 4 ||| n1 / 16)], text.drop 4)
          else
            match char2int text.tail.tail.head? with
            | none => .error (.raise .base64)
            | some n2 =>
              if text.tail.tail.tail.head? = some 61 then
                .ok (buf ++ [UInt8.ofNat (n0 * 4 ||| n1 / 16), UInt8.ofNat (n1 * 16 ||| n2 / 4)],
                  text.drop 4)
              else
                match char2int text.tail.tail.tail.head? with
                | none => .error (.raise .base64)
                | some n3 =>
                  readGroups bufSize fuel (buf ++ [UInt8.ofNat (n0 * 4 ||| n1 / 16),
                    UInt8.ofNat (n1 * 16 ||| n2 / 4), UInt8.ofNat (n2 * 64 ||| n3)]) (text.drop 4)

/-- `read_base64`: what is stored and what is left of the text. -/
def readBase64 (bufSize : Nat) (text : Text) : Result (Text × Text) :=
  if bufSize < 3 then .error .fault else readGroups bufSize bufSize [] text

theorem writeBase64_plain (data : List UInt8) : ∀ c ∈ writeBase64 data, c ≠ 34 ∧ c ≠ 92 := by
  have hEqual : (61 : UInt8) ≠ 34 ∧ (61 : UInt8) ≠ 92 := by decide
  induction data using writeBase64.induct with
  | case1 b0 b1 b2 data ih =>
    simp only [writeBase64, List.forall_mem_cons]
    exact ⟨int2char_plain _, int2char_plain _, int2char_plain _, int2char_plain _, ih⟩
  | case2 b0 b1 =>
    simp only [writeBase64, List.forall_mem_cons]
    exact ⟨int2char_plain _, int2char_plain _, int2char_plain _, hEqual, by simp⟩
  | case3 b0 =>
    simp only [writeBase64, List.forall_mem_cons]
    exact ⟨int2char_plain _, int2char_plain _, hEqual, hEqual, by simp⟩
  | case4 => simp [writeBase64]

/-! ## Bits of a group -/

section

variable {a b n : Nat}

theorem or_eq_add {k : Nat} (i : Nat) (hk : k = 2 ^ i) (hb : b < k) : a * k ||| b = a * k + b := by
  subst hk
  rw [Nat.mul_comm, Nat.two_pow_add_eq_or_of_lt hb]

/-- The lowest two bits of a byte and the highest four of the next one. -/
theorem second_eq (hb : b < 256) : a * 16 % 64 ||| b / 16 = a % 4 * 16 + b / 16 := by
  have hMod : a * 16 % 64 = a % 4 * 16 := by omega
  rw [hMod, or_eq_add 4 (by decide) (by omega)]

/-- The lowest four bits of a byte and the highest two of the next one. -/
theorem third_eq (hb : b < 256) : a * 4 % 64 ||| b / 64 = a % 16 * 4 + b / 64 := by
  have hMod : a * 4 % 64 = a % 16 * 4 := by omega
  rw [hMod, or_eq_add 2 (by decide) (by omega)]

theorem byte_of_mod (c : UInt8) (h : n % 256 = c.toNat) : UInt8.ofNat n = c := by
  rw [← UInt8.toNat_inj]
  simpa using h

/-- The first byte of a group. -/
theorem first_byte (b0 : UInt8) (n1 : Nat) (hn1 : n1 / 16 = b0.toNat % 4) :
    UInt8.ofNat (b0.toNat / 4 * 4 ||| n1 / 16) = b0 := by
  have hb0 := b0.toNat_lt
  refine byte_of_mod b0 ?_
  rw [or_eq_add 2 (by decide) (by omega), hn1]
  omega

/-- The second byte of a group. -/
theorem second_byte (b1 : UInt8) (n1 n2 : Nat) (hn1 : n1 % 16 = b1.toNat / 16)
    (hn2 : n2 / 4 = b1.toNat % 16) : UInt8.ofNat (n1 * 16 ||| n2 / 4) = b1 := by
  have hb1 := b1.toNat_lt
  refine byte_of_mod b1 ?_
  rw [or_eq_add 4 (by decide) (by omega), hn2]
  omega

/-- The third byte of a group. -/
theorem third_byte (b2 : UInt8) (n2 : Nat) (hn2 : n2 % 4 = b2.toNat / 64) :
    UInt8.ofNat (n2 * 64 ||| b2.toNat % 64) = b2 := by
  have hb2 := b2.toNat_lt
  refine byte_of_mod b2 ?_
  rw [or_eq_add 6 (by decide) (by omega)]
  omega

end

/-! ## The encoding -/

/-- The character of the six bits that have `i` times six bits behind them. -/
def sextet (n i : Nat) : UInt8 := UInt8.ofNat (alphabet.getD (n / 64 ^ i % 64) 0)

/-- BASE64: 24 bits are four characters, the highest bits first. Bytes that are missing in the end
are zeros, and a character that has none of the bits of the data is `=`. -/
def base64 : List UInt8 → Text
  | b0 :: b1 :: b2 :: data =>
    let n := b0.toNat * 2 ^ 16 + b1.toNat * 2 ^ 8 + b2.toNat
    sextet n 3 :: sextet n 2 :: sextet n 1 :: sextet n 0 :: base64 data
  | [b0, b1] =>
    let n := b0.toNat * 2 ^ 16 + b1.toNat * 2 ^ 8
    [sextet n 3, sextet n 2, sextet n 1, 61]
  | [b0] =>
    let n := b0.toNat * 2 ^ 16
    [sextet n 3, sextet n 2, 61, 61]
  | [] => []

example : base64 (ascii "foob") = ascii "Zm9vYg==" := by decide

theorem int2char_eq {m n i : Nat} (h : m = n / 64 ^ i % 64) : int2char m = sextet n i := by
  rw [← UInt8.toNat_inj, int2char_toNat, h, ← int2char_toNat]
  unfold int2char sextet
  rw [int2charTable_eq, List.getD_eq_getElem?_getD, List.getD_eq_getElem?_getD, List.getElem?_map]
  cases alphabet[n / 64 ^ i % 64]? <;> rfl

/-- What is written is the encoding of the bytes. -/
theorem writeBase64_eq (data : List UInt8) : writeBase64 data = base64 data := by
  induction data using writeBase64.induct with
  | case1 b0 b1 b2 data ih =>
    have h0 := b0.toNat_lt
    have h1 := b1.toNat_lt
    have h2 := b2.toNat_lt
    let n := b0.toNat * 2 ^ 16 + b1.toNat * 2 ^ 8 + b2.toNat
    rw [writeBase64, base64, second_eq h1, third_eq h2, ih,
      int2char_eq (by omega : b0.toNat / 4 = n / 64 ^ 3 % 64),
      int2char_eq (by omega : b0.toNat % 4 * 16 + b1.toNat / 16 = n / 64 ^ 2 % 64),
      int2char_eq (by omega : b1.toNat % 16 * 4 + b2.toNat / 64 = n / 64 ^ 1 % 64),
      int2char_eq (by omega : b2.toNat % 64 = n / 64 ^ 0 % 64)]
  | case2 b0 b1 =>
    have h0 := b0.toNat_lt
    have h1 := b1.toNat_lt
    let n := b0.toNat * 2 ^ 16 + b1.toNat * 2 ^ 8
    rw [writeBase64, base64, second_eq h1,
      int2char_eq (by omega : b0.toNat / 4 = n / 64 ^ 3 % 64),
      int2char_eq (by omega : b0.toNat % 4 * 16 + b1.toNat / 16 = n / 64 ^ 2 % 64),
      int2char_eq (by omega : b1.toNat * 4 % 64 = n / 64 ^ 1 % 64)]
  | case3 b0 =>
    have h0 := b0.toNat_lt
    let n := b0.toNat * 2 ^ 16
    rw [writeBase64, base64,
      int2char_eq (by omega : b0.toNat / 4 = n / 64 ^ 3 % 64),
      int2char_eq (by omega : b0.toNat * 16 % 64 = n / 64 ^ 2 % 64)]
  | case4 => rfl

/-! ## Reading what has been written -/

section

variable {data rest buf : Text} {bufSize fuel : Nat}

/-- The text does not go on in the alphabet. -/
def EndsBase64 (rest : Text) : Prop := char2int rest.head? = none

theorem readGroups_full (b0 b1 b2 : UInt8) (hRoom : buf.length + 3 ≤ bufSize) (text : Text) :
    readGroups bufSize (fuel + 1) buf (writeBase64 [b0, b1, b2] ++ text) =
      readGroups bufSize fuel (buf ++ [b0, b1, b2]) text := by
  have h0 := b0.toNat_lt
  have h1 := b1.toNat_lt
  have h2 := b2.toNat_lt
  have hSecond := @second_eq b0.toNat b1.toNat h1
  have hThird := @third_eq b1.toNat b2.toNat h2
  simp only [writeBase64, hSecond, hThird, List.cons_append, List.nil_append]
  rw [readGroups, if_neg (by omega)]
  simp only [List.head?_cons, List.tail_cons, Option.some.injEq,
    char2int_int2char (by omega : b0.toNat / 4 < 64),
    char2int_int2char (by omega : b0.toNat % 4 * 16 + b1.toNat / 16 < 64),
    char2int_int2char (by omega : b1.toNat % 16 * 4 + b2.toNat / 64 < 64),
    char2int_int2char (by omega : b2.toNat % 64 < 64),
    int2char_ne, ↓reduceIte, List.drop_succ_cons, List.drop_zero]
  rw [first_byte b0 _ (by omega), second_byte b1 _ _ (by omega) (by omega),
    third_byte b2 _ (by omega)]

theorem readGroups_two (b0 b1 : UInt8) (hRoom : buf.length + 3 ≤ bufSize) (text : Text) :
    readGroups bufSize (fuel + 1) buf (writeBase64 [b0, b1] ++ text) =
      .ok (buf ++ [b0, b1], text) := by
  have h0 := b0.toNat_lt
  have h1 := b1.toNat_lt
  have hSecond := @second_eq b0.toNat b1.toNat h1
  simp only [writeBase64, hSecond, List.cons_append, List.nil_append]
  rw [readGroups, if_neg (by omega)]
  simp only [List.head?_cons, List.tail_cons, Option.some.injEq,
    char2int_int2char (by omega : b0.toNat / 4 < 64),
    char2int_int2char (by omega : b0.toNat % 4 * 16 + b1.toNat / 16 < 64),
    char2int_int2char (by omega : b1.toNat * 4 % 64 < 64),
    int2char_ne, ↓reduceIte, List.drop_succ_cons,
    List.drop_zero]
  rw [first_byte b0 _ (by omega), second_byte b1 _ _ (by omega) (by omega)]

theorem readGroups_one (b0 : UInt8) (hRoom : buf.length + 3 ≤ bufSize) (text : Text) :
    readGroups bufSize (fuel + 1) buf (writeBase64 [b0] ++ text) = .ok (buf ++ [b0], text) := by
  have h0 := b0.toNat_lt
  simp only [writeBase64, List.cons_append, List.nil_append]
  rw [readGroups, if_neg (by omega)]
  simp only [List.head?_cons, List.tail_cons, char2int_int2char (by omega : b0.toNat / 4 < 64),
    char2int_int2char (by omega : b0.toNat * 16 % 64 < 64), ↓reduceIte, List.drop_succ_cons,
    List.drop_zero]
  rw [first_byte b0 _ (by omega)]

/-- As many groups are read as fit. -/
theorem readGroups_write (hEnd : EndsBase64 rest) (hFuel : bufSize ≤ buf.length + fuel) :
    readGroups bufSize fuel buf (writeBase64 data ++ rest) =
      .ok (buf ++ data.take ((bufSize - buf.length) / 3 * 3),
        writeBase64 (data.drop ((bufSize - buf.length) / 3 * 3)) ++ rest) := by
  induction fuel generalizing buf data with
  | zero =>
    have hZero : (bufSize - buf.length) / 3 * 3 = 0 := by omega
    rw [hZero, readGroups]
    simp
  | succ fuel ih =>
    by_cases hFull : bufSize < buf.length + 3
    · have hZero : (bufSize - buf.length) / 3 * 3 = 0 := by omega
      rw [hZero, readGroups, if_pos hFull]
      simp
    · have hRoom : buf.length + 3 ≤ bufSize := by omega
      obtain ⟨m, hm⟩ : ∃ m, (bufSize - buf.length) / 3 * 3 = m + 3 :=
        ⟨(bufSize - buf.length) / 3 * 3 - 3, by omega⟩
      rcases data with - | ⟨b0, - | ⟨b1, - | ⟨b2, data⟩⟩⟩
      · have hNone : char2int (writeBase64 [] ++ rest).head? = none := hEnd
        rw [readGroups, if_neg hFull]
        simp only [hNone]
        simp
      · rw [readGroups_one b0 hRoom, hm]
        simp [writeBase64]
      · rw [readGroups_two b0 b1 hRoom, hm]
        simp [writeBase64]
      · have hSplit : writeBase64 (b0 :: b1 :: b2 :: data) ++ rest =
            writeBase64 [b0, b1, b2] ++ (writeBase64 data ++ rest) := rfl
        have hLength : (buf ++ [b0, b1, b2]).length = buf.length + 3 := by simp
        have hRest := @ih data (buf ++ [b0, b1, b2]) (by rw [hLength]; omega)
        have hLess : (bufSize - (buf.length + 3)) / 3 * 3 = m := by omega
        rw [hLength, hLess] at hRest
        rw [hSplit, readGroups_full b0 b1 b2 hRoom, hRest, hm]
        simp

/-- What has been written is read group by group. -/
theorem readBase64_write (hEnd : EndsBase64 rest) (hSize : 3 ≤ bufSize) :
    readBase64 bufSize (writeBase64 data ++ rest) =
      .ok (data.take (bufSize / 3 * 3), writeBase64 (data.drop (bufSize / 3 * 3)) ++ rest) := by
  rw [readBase64, if_neg (by omega), readGroups_write hEnd (by simp)]
  rfl

end

end TcfAgent.JsonBuffers
