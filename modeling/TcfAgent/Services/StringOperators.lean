import TcfAgent.Services.ExpressionLexer

/-!
# String operators

`+` and the comparisons of `services/expressions.c` on two arrays of characters, which may have
elements of one or of four bytes and no zero at their end. The code takes both for strings of bytes:
it calls `strlen`, `strcpy`, `strcat` and `strcmp`, which here have no result where they read beyond
an array.

Main results:

* `strcmp_eq`            — `strcmp` on bytes with a zero;
* `string_operators_iff` — for which arrays the operators work on the elements.
-/

namespace TcfAgent.StringOperators

open TcfAgent.JsonText TcfAgent.Expressions.Lexer

/-! ## The code -/

def strlen : Text → Option Nat
  | [] => none
  | c :: t => if c = 0 then some 0 else (strlen t).map (· + 1)

/-- The order of the first bytes that differ, as unsigned numbers. -/
def strcmp : Text → Text → Option Ordering
  | [], _ | _, [] => none
  | c :: t, d :: u =>
    if c = d then (if c = 0 then some .eq else strcmp t u)
    else some (if c < d then .lt else .gt)

/-- `additive_expression`: the value of the sum, whose size is that of both strings and of one zero.
-/
def concat (v x : Text) : Option Text := do
  let n ← strlen v
  let m ← strlen x
  return v.take n ++ x.take m ++ [0]

/-- The operators that compare. -/
inductive Comparison where
  | lt | gt | le | ge | eq | ne
deriving DecidableEq, Repr

/-- `relational_expression` and `equality_expression`, for what `strcmp` returns. -/
def Comparison.of : Comparison → Ordering → Bool
  | .lt, n => n = .lt
  | .gt, n => n = .gt
  | .le, n => n ≠ .gt
  | .ge, n => n ≠ .lt
  | .eq, n => n = .eq
  | .ne, n => n ≠ .eq

def Comparison.run (op : Comparison) (v x : Text) : Option Bool := (strcmp v x).map op.of

/-! ## Arrays of characters -/

/-- An element of four bytes. -/
def wordBytes (bigEndian : Bool) (e : Nat) : Text :=
  if bigEndian then (elementBytes 4 e).reverse else elementBytes 4 e

def wordOf (bigEndian : Bool) (a b c d : UInt8) : Nat :=
  if bigEndian then d.toNat + c.toNat * 2 ^ 8 + b.toNat * 2 ^ 16 + a.toNat * 2 ^ 24
  else a.toNat + b.toNat * 2 ^ 8 + c.toNat * 2 ^ 16 + d.toNat * 2 ^ 24

/-- The elements that are whole. -/
def words (bigEndian : Bool) : Text → List Nat
  | a :: b :: c :: d :: t => wordOf bigEndian a b c d :: words bigEndian t
  | _ => []

def bytesOf (wide bigEndian : Bool) (es : List Nat) : Text :=
  if wide then es.flatMap (wordBytes bigEndian) else es.map UInt8.ofNat

def elementsOf (wide bigEndian : Bool) (t : Text) : List Nat :=
  if wide then words bigEndian t else t.map UInt8.toNat

/-- A value of an array class with elements of one or four bytes, in the byte order of the value. -/
structure CharArray where
  wide      : Bool
  bigEndian : Bool
  elements  : List Nat
  fits      : ∀ e ∈ elements, e < if wide then 2 ^ 32 else 2 ^ 8

def CharArray.bytes (v : CharArray) : Text := bytesOf v.wide v.bigEndian v.elements

/-- The elements up to the first zero, or to the end of the array. -/
def CharArray.string (v : CharArray) : List Nat := v.elements.takeWhile (· ≠ 0)

/-- What a comparison says of the elements. -/
def Comparison.On : Comparison → List Nat → List Nat → Prop
  | .lt, s, u => s < u
  | .gt, s, u => u < s
  | .le, s, u => s ≤ u
  | .ge, s, u => u ≤ s
  | .eq, s, u => s = u
  | .ne, s, u => s ≠ u

/-- The operators work on the strings of the arrays, and read nothing else: the sum is read in
elements of four bytes if one of the arrays has them, and in the byte order of the left one, which
is where the result is put. -/
def Works (v x : CharArray) : Prop :=
  (∃ r, concat v.bytes x.bytes = some r ∧
    (elementsOf (v.wide || x.wide) v.bigEndian r).takeWhile (· ≠ 0) = v.string ++ x.string) ∧
  ∀ op : Comparison, ∃ b, op.run v.bytes x.bytes = some b ∧ (b = true ↔ op.On v.string x.string)

/-- Both arrays have a zero byte. If elements are wide, then a narrow array is empty, the byte
orders make no difference, no byte of the strings is zero but the very last one, and the strings
have the order of their bytes. -/
def BytesSuffice (v x : CharArray) : Prop :=
  0 ∈ v.bytes ∧ 0 ∈ x.bytes ∧ ((v.wide || x.wide) = true →
    (v.wide = false → v.string = []) ∧ (x.wide = false → x.string = []) ∧
    bytesOf true x.bigEndian x.string = bytesOf true v.bigEndian x.string ∧
    0 ∉ (bytesOf true v.bigEndian (v.string ++ x.string)).dropLast ∧
    (v.string < x.string ↔
      bytesOf true v.bigEndian v.string < bytesOf true v.bigEndian x.string))

/-! ## Strings of bytes -/

section

variable {t u : Text}

/-- The bytes up to a zero. -/
def upToZero (t : Text) : Text := t.takeWhile (· ≠ 0)

@[simp] theorem upToZero_nil : upToZero [] = [] := rfl

@[simp] theorem upToZero_zero (t : Text) : upToZero (0 :: t) = [] := rfl

theorem upToZero_cons {c : UInt8} (hc : c ≠ 0) (t : Text) : upToZero (c :: t) = c :: upToZero t :=
  List.takeWhile_cons_of_pos (decide_eq_true hc)

theorem strlen_eq (h : 0 ∈ t) : strlen t = some (upToZero t).length := by
  induction t with
  | nil => cases h
  | cons c t ih =>
    unfold strlen
    by_cases hc : c = 0
    · simp [hc]
    · have hMem : 0 ∈ t := (List.mem_cons.1 h).resolve_left (Ne.symm hc)
      simp [hc, ih hMem, upToZero_cons]

theorem strlen_none (h : 0 ∉ t) : strlen t = none := by
  induction t with
  | nil => rfl
  | cons c t ih =>
    rw [List.mem_cons, not_or] at h
    rw [strlen, if_neg (Ne.symm h.1), ih h.2]
    rfl

theorem take_upToZero (t : Text) : t.take (upToZero t).length = upToZero t :=
  (List.prefix_iff_eq_take.1 (List.takeWhile_prefix _)).symm

theorem concat_eq (ht : 0 ∈ t) (hu : 0 ∈ u) :
    concat t u = some (upToZero t ++ upToZero u ++ [0]) := by
  simp [concat, strlen_eq ht, strlen_eq hu, take_upToZero]

theorem zero_mem_of_concat {r : Text} (h : concat t u = some r) : 0 ∈ t ∧ 0 ∈ u := by
  refine ⟨?_, ?_⟩
  · by_contra hNot
    simp [concat, strlen_none hNot] at h
  · by_contra hNot
    simp [concat, strlen_none hNot] at h

end

/-! ## Orders -/

section

variable {α : Type} [LT α] [DecidableEq α] [DecidableLT α]

/-- The order of two lists: that of their first elements that differ. -/
def orderOf : List α → List α → Ordering
  | [], [] => .eq
  | [], _ :: _ => .lt
  | _ :: _, [] => .gt
  | a :: s, b :: u => if a = b then orderOf s u else if a < b then .lt else .gt

theorem orderOf_eq (s u : List α) : orderOf s u = .eq ↔ s = u := by
  induction s generalizing u with
  | nil => cases u <;> simp [orderOf]
  | cons a s ih =>
    cases u with
    | nil => simp [orderOf]
    | cons b u =>
      rw [orderOf, List.cons.injEq]
      by_cases hab : a = b
      · simp [hab, ih]
      · rw [if_neg hab]
        split <;> simp [hab]

theorem orderOf_lt (hIrrefl : ∀ a : α, ¬ a < a) (s u : List α) : orderOf s u = .lt ↔ s < u := by
  induction s generalizing u with
  | nil => cases u <;> simp [orderOf]
  | cons a s ih =>
    cases u with
    | nil => simp [orderOf]
    | cons b u =>
      rw [orderOf, List.cons_lt_cons_iff]
      by_cases hab : a = b
      · simp [hab, ih, hIrrefl]
      · rw [if_neg hab]
        split <;> simp [*]

/-- Two pairs of lists are ordered in the same way. -/
theorem orderOf_congr {β : Type} [LT β] [DecidableEq β] [DecidableLT β] (hIrrefl : ∀ a : α, ¬ a < a)
    (hIrrefl' : ∀ a : β, ¬ a < a) {s u : List α} {s' u' : List β} (hEq : s = u ↔ s' = u')
    (hLt : s < u ↔ s' < u') : orderOf s u = orderOf s' u' := by
  rw [← orderOf_eq, ← orderOf_eq s' u'] at hEq
  rw [← orderOf_lt hIrrefl, ← orderOf_lt hIrrefl' s' u'] at hLt
  generalize orderOf s u = o at *
  generalize orderOf s' u' = o' at *
  revert hEq hLt
  cases o <;> cases o' <;> decide

end

/-- What all comparisons say of two lists together is their order. -/
theorem comparisons_iff (o : Ordering) (s u : List Nat) :
    (∀ op : Comparison, op.of o = true ↔ op.On s u) ↔ o = orderOf s u := by
  have hLt := orderOf_lt Nat.lt_irrefl s u
  have hEq := orderOf_eq s u
  have hLe : s ≤ u ↔ ¬ u < s := not_lt.symm
  have hGe : u ≤ s ↔ ¬ s < u := not_lt.symm
  have hGt : u < s ↔ ¬ s < u ∧ s ≠ u := by
    constructor
    · exact fun h => ⟨lt_asymm h, h.ne'⟩
    · exact fun h => lt_of_le_of_ne (not_lt.1 h.1) (Ne.symm h.2)
  constructor
  · intro h
    have hOpLt : decide (o = .lt) = true ↔ s < u := h .lt
    have hOpEq : decide (o = .eq) = true ↔ s = u := h .eq
    rw [decide_eq_true_eq, ← hLt] at hOpLt
    rw [decide_eq_true_eq, ← hEq] at hOpEq
    generalize orderOf s u = o' at *
    revert hOpLt hOpEq
    cases o <;> cases o' <;> decide
  · intro h op
    rw [h]
    cases op with
    | lt => simp [Comparison.of, Comparison.On, hLt]
    | eq => simp [Comparison.of, Comparison.On, hEq]
    | ne => simp [Comparison.of, Comparison.On, hEq]
    | ge => rw [Comparison.of, Comparison.On, decide_eq_true_eq, hGe, ← hLt]
    | gt =>
      rw [Comparison.of, Comparison.On, decide_eq_true_eq, hGt, ← hLt, ne_eq, ← hEq]
      cases orderOf s u <;> decide
    | le =>
      rw [Comparison.of, Comparison.On, decide_eq_true_eq, hLe, hGt, ← hLt, ne_eq, ne_eq, ← hEq]
      cases orderOf s u <;> decide

variable {t u : Text}

/-- `strcmp` on bytes with a zero. -/
theorem strcmp_eq (ht : 0 ∈ t) (hu : 0 ∈ u) :
    strcmp t u = some (orderOf (upToZero t) (upToZero u)) := by
  induction t generalizing u with
  | nil => cases ht
  | cons c t ih =>
    obtain ⟨d, u, rfl⟩ := List.exists_cons_of_ne_nil (List.ne_nil_of_mem hu)
    unfold strcmp
    by_cases hcd : c = d
    · by_cases hc : c = 0
      · simp [← hcd, hc, orderOf]
      · have hd : d ≠ 0 := by rwa [hcd] at hc
        have hMem := (List.mem_cons.1 ht).resolve_left (Ne.symm hc)
        have hMem' := (List.mem_cons.1 hu).resolve_left (Ne.symm hd)
        simp [hcd, hd, orderOf, ih hMem hMem', upToZero_cons]
    · rw [if_neg hcd]
      by_cases hc : c = 0
      · have hd : d ≠ 0 := fun hd => hcd (hc.trans hd.symm)
        have hPos : 0 < d := UInt8.pos_iff_ne_zero.2 hd
        simp [hc, hd, orderOf, hPos, upToZero_cons]
      · by_cases hd : d = 0
        · simp [hc, hd, orderOf, upToZero_cons]
        · simp [hc, hd, orderOf, hcd, upToZero_cons]

/-! ## Elements of four bytes -/

section

variable {bigEndian : Bool} {e : Nat} {es : List Nat} {t : Text}

theorem wordBytes_length (bigEndian : Bool) (e : Nat) : (wordBytes bigEndian e).length = 4 := by
  unfold wordBytes
  split <;> simp [elementBytes]

theorem elementBytes_four (e : Nat) : elementBytes 4 e =
    [UInt8.ofNat e, UInt8.ofNat (e / 2 ^ 8), UInt8.ofNat (e / 2 ^ 16), UInt8.ofNat
    (e / 2 ^ 24)] := by
  simp [elementBytes, List.range_succ]

/-- An element is read as it was written. -/
theorem wordOf_bytes (he : e < 2 ^ 32) : ∃ a b c d, wordBytes bigEndian e = [a, b, c, d] ∧
    wordOf bigEndian a b c d = e := by
  cases bigEndian with
  | false =>
    refine ⟨_, _, _, _, elementBytes_four e, ?_⟩
    simp only [wordOf, Bool.false_eq_true, if_false, UInt8.toNat_ofNat']
    omega
  | true =>
    refine ⟨_, _, _, _, congrArg List.reverse (elementBytes_four e), ?_⟩
    simp only [wordOf, if_true, UInt8.toNat_ofNat']
    omega

/-- And written as it was read. -/
theorem wordBytes_of (bigEndian : Bool) (a b c d : UInt8) :
    wordBytes bigEndian (wordOf bigEndian a b c d) = [a, b, c, d] := by
  have ha := a.toNat_lt
  have hb := b.toNat_lt
  have hc := c.toNat_lt
  have hd := d.toNat_lt
  have hByte {n : Nat} {x : UInt8} (h : n % 2 ^ 8 = x.toNat) : UInt8.ofNat n = x := by
    rw [← UInt8.toNat_inj, UInt8.toNat_ofNat', h]
  cases bigEndian with
  | false =>
    simp only [wordBytes, wordOf, Bool.false_eq_true, if_false, elementBytes_four]
    rw [hByte (x := a) (by omega), hByte (x := b) (by omega), hByte (x := c) (by omega),
      hByte (x := d) (by omega)]
  | true =>
    simp only [wordBytes, wordOf, if_true, elementBytes_four]
    rw [hByte (x := d) (by omega), hByte (x := c) (by omega), hByte (x := b) (by omega),
      hByte (x := a) (by omega)]
    rfl

theorem bytesOf_wide (bigEndian : Bool) (es : List Nat) :
    bytesOf true bigEndian es = es.flatMap (wordBytes bigEndian) := rfl

theorem bytesOf_length (bigEndian : Bool) (es : List Nat) :
    (bytesOf true bigEndian es).length = 4 * es.length := by
  induction es with
  | nil => rfl
  | cons e es ih =>
    rw [bytesOf_wide] at ih ⊢
    rw [List.flatMap_cons, List.length_append, wordBytes_length, ih, List.length_cons]
    omega

theorem bytesOf_append (bigEndian : Bool) (s u : List Nat) :
    bytesOf true bigEndian (s ++ u) = bytesOf true bigEndian s ++ bytesOf true bigEndian u :=
  List.flatMap_append

theorem words_bytes (h : ∀ e ∈ es, e < 2 ^ 32) (t : Text) :
    words bigEndian (bytesOf true bigEndian es ++ t) = es ++ words bigEndian t := by
  induction es with
  | nil => rfl
  | cons e es ih =>
    obtain ⟨a, b, c, d, hBytes, hWord⟩ := @wordOf_bytes bigEndian e (h e List.mem_cons_self)
    have hRest := ih fun x hx => h x (List.mem_cons_of_mem _ hx)
    rw [bytesOf_wide] at hRest ⊢
    rw [List.flatMap_cons, hBytes]
    show wordOf bigEndian a b c d :: words bigEndian (es.flatMap (wordBytes bigEndian) ++ t) = _
    rw [hWord, hRest, List.cons_append]

/-- The bytes of the elements that are read are at the beginning. -/
theorem bytes_words (bigEndian : Bool) (t : Text) :
    bytesOf true bigEndian (words bigEndian t) <+: t := by
  induction t using words.induct with
  | case1 a b c d t ih =>
    rw [words, bytesOf_wide, List.flatMap_cons, wordBytes_of]
    exact (List.prefix_append_right_inj [a, b, c, d]).2 ih
  | case2 t hShort =>
    rw [words.eq_2]
    · exact List.nil_prefix
    · exact hShort

theorem bytesOf_inj {s u : List Nat} (hs : ∀ e ∈ s, e < 2 ^ 32) (hu : ∀ e ∈ u, e < 2 ^ 32)
    (h : bytesOf true bigEndian s = bytesOf true bigEndian u) : s = u := by
  have hWords := @words_bytes bigEndian _ hs []
  rw [h, words_bytes hu []] at hWords
  simpa [words] using hWords.symm

end

/-! ## Bytes up to a zero -/

section

variable {t u : Text} {es : List Nat}

theorem zero_notMem_upToZero (t : Text) : 0 ∉ upToZero t := by
  intro h
  have hNot := List.mem_takeWhile_imp h
  simp at hNot

theorem upToZero_isPrefixOf (t : Text) : upToZero t <+: t := List.takeWhile_prefix _

theorem upToZero_of_notMem (h : 0 ∉ t) : upToZero t = t :=
  List.takeWhile_eq_self_iff.2 fun _ hc => decide_eq_true fun hZero => h (hZero ▸ hc)

/-- Behind the bytes up to a zero there is nothing, or a zero. -/
theorem upToZero_split (t : Text) : t = upToZero t ∨ ∃ rest, t = upToZero t ++ 0 :: rest := by
  induction t with
  | nil => exact .inl rfl
  | cons c t ih =>
    by_cases hc : c = 0
    · exact .inr ⟨t, by simp [hc]⟩
    · rw [upToZero_cons hc]
      rcases ih with hAll | ⟨rest, hRest⟩
      · exact .inl (congrArg (c :: ·) hAll)
      · exact .inr ⟨rest, congrArg (c :: ·) hRest⟩

/-- One byte is missing, at most, if only the last one may be zero. -/
theorem upToZero_dropLast (h : 0 ∉ t.dropLast) : t = upToZero t ∨ t = upToZero t ++ [0] := by
  rcases upToZero_split t with hAll | ⟨rest, hRest⟩
  · exact .inl hAll
  · cases rest with
    | nil => exact .inr hRest
    | cons c rest =>
      refine absurd ?_ h
      rw [hRest, List.dropLast_append_cons, List.dropLast_cons_cons]
      exact List.mem_append_right _ List.mem_cons_self

theorem upToZero_append (t u : Text) :
    upToZero (t ++ u) = if 0 ∈ t then upToZero t else t ++ upToZero u := by
  induction t with
  | nil => rfl
  | cons c t ih =>
    by_cases hc : c = 0
    · simp [hc]
    · rw [List.cons_append, upToZero_cons hc, upToZero_cons hc, ih]
      by_cases hMem : 0 ∈ t
      · simp [hMem]
      · simp [hMem, Ne.symm hc]

/-- The bytes of one element. -/
theorem bytesOf_cons (wide bigEndian : Bool) (e : Nat) (es : List Nat) :
    bytesOf wide bigEndian (e :: es) =
      bytesOf wide bigEndian [e] ++ bytesOf wide bigEndian es := by
  cases wide with
  | false => rfl
  | true => exact bytesOf_append bigEndian [e] es

/-- The elements behind a zero element do not matter for the bytes up to a zero. -/
theorem upToZero_bytesOf (wide bigEndian : Bool) (es : List Nat) :
    upToZero (bytesOf wide bigEndian es) =
      upToZero (bytesOf wide bigEndian (es.takeWhile (· ≠ 0))) := by
  induction es with
  | nil => rfl
  | cons e es ih =>
    by_cases he : e = 0
    · have hNone : upToZero (bytesOf wide bigEndian [0]) = [] ∧
          0 ∈ bytesOf wide bigEndian [0] := by
        cases wide <;> cases bigEndian <;> decide
      rw [he, bytesOf_cons, upToZero_append, if_pos hNone.2, hNone.1]
      cases wide <;> rfl
    · have hTake : (e :: es).takeWhile (· ≠ 0) = e :: es.takeWhile (· ≠ 0) :=
        List.takeWhile_cons_of_pos (decide_eq_true he)
      rw [hTake, bytesOf_cons, upToZero_append, ih, ← upToZero_append, ← bytesOf_cons]

theorem upToZero_length (wide bigEndian : Bool) (es : List Nat) :
    (upToZero (bytesOf wide bigEndian es)).length ≤ (if wide then 4 else 1) * es.length := by
  refine (upToZero_isPrefixOf _).length_le.trans ?_
  cases wide with
  | false => simp [bytesOf]
  | true => exact Nat.le_of_eq (bytesOf_length bigEndian es)

/-- A zero behind a list only decides where the lists would be equal. -/
theorem orderOf_zero (ht : 0 ∉ t) (hNe : t ≠ u) : orderOf t (u ++ [0]) = orderOf t u := by
  induction t generalizing u with
  | nil =>
    cases u with
    | nil => exact absurd rfl hNe
    | cons d u => rfl
  | cons c t ih =>
    rw [List.mem_cons, not_or] at ht
    cases u with
    | nil =>
      have hNot : ¬ c < 0 := by simp
      have hc : c ≠ 0 := Ne.symm ht.1
      simp [orderOf, hc, hNot]
    | cons d u =>
      rw [List.cons_append, orderOf, orderOf]
      split
      · next hcd =>
        refine ih ht.2 fun hTail => hNe ?_
        rw [hcd, hTail]
      · rfl

/-- Where only the last byte of both may be zero, whole elements are ordered as their bytes up to a
zero. -/
theorem orderOf_upToZero (ht : t.length % 4 = 0) (hu : u.length % 4 = 0)
    (h : 0 ∉ (t ++ u).dropLast) : orderOf (upToZero t) (upToZero u) = orderOf t u := by
  cases u with
  | nil =>
    rw [List.append_nil] at h
    rw [upToZero_nil]
    rcases upToZero_dropLast h with hAll | hLast
    · rw [← hAll]
    · cases hHead : upToZero t with
      | nil =>
        rw [hLast, hHead] at ht
        cases ht
      | cons c s =>
        rw [hLast, hHead]
        rfl
  | cons d u =>
    rw [List.dropLast_append_cons, List.mem_append, not_or] at h
    rw [upToZero_of_notMem h.1]
    rcases upToZero_dropLast h.2 with hAll | hLast
    · rw [← hAll]
    · conv_rhs => rw [hLast]
      refine (orderOf_zero h.1 fun hSame => ?_).symm
      have hLength := congrArg List.length hLast
      rw [← hSame, List.length_append, List.length_singleton] at hLength
      omega

end

/-! ## The operators -/

section

variable {v x : CharArray}

theorem CharArray.upToZero_bytes (v : CharArray) :
    upToZero v.bytes = upToZero (bytesOf v.wide v.bigEndian v.string) :=
  upToZero_bytesOf v.wide v.bigEndian v.elements

theorem CharArray.string_fits (v : CharArray) :
    ∀ e ∈ v.string, e < if v.wide then 2 ^ 32 else 2 ^ 8 := fun e he =>
  v.fits e ((List.takeWhile_prefix _).subset he)

theorem CharArray.string_lt (v : CharArray) : ∀ e ∈ v.string, e < 2 ^ 32 := by
  intro e he
  have hFits := v.string_fits e he
  split at hFits <;> omega

theorem CharArray.string_ne (v : CharArray) : ∀ e ∈ v.string, e ≠ 0 := by
  intro e he
  simpa using List.mem_takeWhile_imp he

/-- What is left to say once both arrays have a zero byte. -/
theorem works_iff (hv : 0 ∈ v.bytes) (hx : 0 ∈ x.bytes) :
    Works v x ↔
      (elementsOf (v.wide || x.wide) v.bigEndian
        (upToZero v.bytes ++ upToZero x.bytes ++ [0])).takeWhile (· ≠ 0) = v.string ++ x.string ∧
      orderOf (upToZero v.bytes) (upToZero x.bytes) = orderOf v.string x.string := by
  have hConcat := concat_eq hv hx
  have hRun (op : Comparison) : op.run v.bytes x.bytes =
      some (op.of (orderOf (upToZero v.bytes) (upToZero x.bytes))) := by
    rw [Comparison.run, strcmp_eq hv hx]
    rfl
  rw [← comparisons_iff]
  constructor
  · rintro ⟨⟨r, hr, hSum⟩, hOps⟩
    rw [hConcat] at hr
    rw [Option.some.inj hr]
    refine ⟨hSum, fun op => ?_⟩
    obtain ⟨b, hb, hOn⟩ := hOps op
    rw [hRun] at hb
    rwa [Option.some.inj hb]
  · rintro ⟨hSum, hOps⟩
    exact ⟨⟨_, hConcat, hSum⟩, fun op => ⟨_, hRun op, hOps op⟩⟩

theorem takeWhile_ne (s u : List Nat) (h : ∀ e ∈ s, e ≠ 0) :
    (s ++ u).takeWhile (· ≠ 0) = s ++ u.takeWhile (· ≠ 0) :=
  List.takeWhile_append_of_pos fun e he => decide_eq_true (h e he)

-- Elements of one byte

theorem upToZero_narrow (hNarrow : v.wide = false) :
    upToZero v.bytes = v.string.map UInt8.ofNat := by
  rw [v.upToZero_bytes, hNarrow]
  refine upToZero_of_notMem fun h => ?_
  obtain ⟨e, he, hZero⟩ := List.mem_map.1 h
  have hFits := v.string_fits e he
  rw [hNarrow] at hFits
  refine v.string_ne e he ?_
  have hNat := congrArg UInt8.toNat hZero
  rw [UInt8.toNat_ofNat'] at hNat
  exact (Nat.mod_eq_of_lt hFits).symm.trans hNat

theorem map_toNat {s : List Nat} (h : ∀ e ∈ s, e < 2 ^ 8) :
    (s.map UInt8.ofNat).map UInt8.toNat = s := by
  rw [List.map_map]
  refine (List.map_congr_left fun e he => ?_).trans (List.map_id s)
  rw [Function.comp_apply, UInt8.toNat_ofNat', Nat.mod_eq_of_lt (h e he)]
  rfl

theorem orderOf_map {s u : List Nat} (hs : ∀ e ∈ s, e < 2 ^ 8) (hu : ∀ e ∈ u, e < 2 ^ 8) :
    orderOf (s.map UInt8.ofNat) (u.map UInt8.ofNat) = orderOf s u := by
  induction s generalizing u with
  | nil => cases u <;> rfl
  | cons a s ih =>
    cases u with
    | nil => rfl
    | cons b u =>
      have ha := hs a List.mem_cons_self
      have hb := hu b List.mem_cons_self
      have hEq : UInt8.ofNat a = UInt8.ofNat b ↔ a = b := by
        rw [← UInt8.toNat_inj, UInt8.toNat_ofNat', UInt8.toNat_ofNat', Nat.mod_eq_of_lt ha,
          Nat.mod_eq_of_lt hb]
      have hLt : UInt8.ofNat a < UInt8.ofNat b ↔ a < b := by
        rw [UInt8.lt_iff_toNat_lt, UInt8.toNat_ofNat', UInt8.toNat_ofNat', Nat.mod_eq_of_lt ha,
          Nat.mod_eq_of_lt hb]
      rw [List.map_cons, List.map_cons, orderOf, orderOf,
        ih (fun e he => hs e (List.mem_cons_of_mem _ he)) fun e he =>
          hu e (List.mem_cons_of_mem _ he)]
      simp only [hEq, hLt]

/-- Narrow strings are what the code takes them for. -/
theorem narrow_works (hNarrow : (v.wide || x.wide) = false) :
    (elementsOf (v.wide || x.wide) v.bigEndian
      (upToZero v.bytes ++ upToZero x.bytes ++ [0])).takeWhile (· ≠ 0) = v.string ++ x.string ∧
      orderOf (upToZero v.bytes) (upToZero x.bytes) = orderOf v.string x.string := by
  obtain ⟨hv, hx⟩ := Bool.or_eq_false_iff.1 hNarrow
  have hFits {y : CharArray} (hy : y.wide = false) : ∀ e ∈ y.string, e < 2 ^ 8 := by
    intro e he
    have hLess := y.string_fits e he
    rwa [hy] at hLess
  have hNe : ∀ e ∈ v.string ++ x.string, e ≠ 0 := fun e he =>
    (List.mem_append.1 he).elim (v.string_ne e) (x.string_ne e)
  rw [upToZero_narrow hv, upToZero_narrow hx]
  refine ⟨?_, orderOf_map (hFits hv) (hFits hx)⟩
  rw [hNarrow]
  simp only [elementsOf, Bool.false_eq_true, if_false, List.map_append, map_toNat (hFits hv),
    map_toNat (hFits hx)]
  rw [takeWhile_ne _ _ hNe]
  exact List.append_nil _

-- Elements of four bytes

/-- Whole elements whose bytes are at the beginning of a string have no zero byte but the last. -/
theorem notMem_of_prefix (h : t <+: u ++ [0]) (hu : 0 ∉ u) : 0 ∉ t.dropLast := by
  rcases List.prefix_concat_iff.1 h with hAll | hPrefix
  · rwa [hAll, List.dropLast_concat]
  · exact fun hMem => hu (hPrefix.subset (List.dropLast_subset t hMem))

/-- What is behind the first string is the second one, when there is as much of it. -/
theorem eq_of_prefix {p q r : Text} (hLength : r.length = q.length)
    (h : p ++ q <+: upToZero p ++ upToZero r ++ [0]) : r = q := by
  have hZero := zero_notMem_upToZero r
  rw [List.append_assoc] at h
  rcases upToZero_split p with hp | ⟨rest, hp⟩
  · rw [← hp, List.prefix_append_right_inj] at h
    rcases upToZero_split r with hr | ⟨rest, hr⟩
    · rw [← hr, List.prefix_concat_iff] at h
      rcases h with hAll | hPrefix
      · rw [hAll, List.length_append, List.length_singleton] at hLength
        omega
      · exact (hPrefix.eq_of_length hLength.symm).symm
    · have hLess := h.length_le
      rw [← hLength, congrArg List.length hr, List.length_append, List.length_append,
        List.length_cons, List.length_singleton] at hLess
      have hNone : rest = [] := List.eq_nil_of_length_eq_zero (by omega)
      rw [hNone] at hr
      rw [← hr] at h
      exact (h.eq_of_length hLength.symm).symm
  · have hSplit : upToZero p ++ (0 :: (rest ++ q)) <+: upToZero p ++ (upToZero r ++ [0]) := by
      rw [← List.cons_append, ← List.append_assoc, ← hp]
      exact h
    rw [List.prefix_append_right_inj] at hSplit
    have hLess := hSplit.length_le
    rw [List.length_cons, List.length_append, List.length_append, List.length_singleton,
      ← hLength] at hLess
    have hAll : r = upToZero r :=
      ((upToZero_isPrefixOf r).eq_of_length
        (le_antisymm (upToZero_isPrefixOf r).length_le (by omega))).symm
    cases r with
    | nil => exact (List.eq_nil_of_length_eq_zero hLength.symm).symm
    | cons c r =>
      rw [← hAll, List.cons_append, List.cons_prefix_cons] at hSplit
      rw [← hAll, hSplit.1] at hZero
      exact absurd List.mem_cons_self hZero

theorem CharArray.upToZero_wide (h : v.wide = false → v.string = []) :
    upToZero v.bytes = upToZero (bytesOf true v.bigEndian v.string) := by
  rw [v.upToZero_bytes]
  cases hWide : v.wide with
  | true => rfl
  | false => rw [h hWide]; rfl

theorem CharArray.upToZero_le (v : CharArray) :
    (upToZero v.bytes).length ≤ (if v.wide then 4 else 1) * v.string.length := by
  rw [v.upToZero_bytes]
  exact upToZero_length _ _ _

/-- A sum that has the elements of both strings. -/
theorem suffice_of_sum (hWide : (v.wide || x.wide) = true)
    (h : bytesOf true v.bigEndian (v.string ++ x.string) <+:
      upToZero v.bytes ++ upToZero x.bytes ++ [0]) :
    (v.wide = false → v.string = []) ∧ (x.wide = false → x.string = []) ∧
      bytesOf true x.bigEndian x.string = bytesOf true v.bigEndian x.string ∧
      0 ∉ (bytesOf true v.bigEndian (v.string ++ x.string)).dropLast := by
  have hZeros : 0 ∉ upToZero v.bytes ++ upToZero x.bytes := by
    rw [List.mem_append, not_or]
    exact ⟨zero_notMem_upToZero _, zero_notMem_upToZero _⟩
  have hLast := notMem_of_prefix h hZeros
  have hLength := h.length_le
  simp only [bytesOf_length, List.length_append, List.length_singleton] at hLength
  have hv := v.upToZero_le
  have hx := x.upToZero_le
  have hLeft : v.wide = false → v.string = [] := by
    intro hNarrow
    rw [hNarrow, Bool.false_or] at hWide
    simp only [hNarrow, hWide, Bool.false_eq_true, if_false, if_true] at hv hx
    exact List.eq_nil_of_length_eq_zero (by omega)
  have hRight : x.wide = false → x.string = [] := by
    intro hNarrow
    rw [hNarrow, Bool.or_false] at hWide
    simp only [hNarrow, hWide, Bool.false_eq_true, if_false, if_true] at hv hx
    exact List.eq_nil_of_length_eq_zero (by omega)
  rw [bytesOf_append, v.upToZero_wide hLeft, x.upToZero_wide hRight] at h
  exact ⟨hLeft, hRight,
    eq_of_prefix ((bytesOf_length _ _).trans (bytesOf_length _ _).symm) h, hLast⟩

/-- The sum is the bytes of both strings, with or without a zero behind them. -/
theorem sum_of_suffice (h : 0 ∉ (t ++ u).dropLast) :
    upToZero t ++ upToZero u ++ [0] = t ++ u ∨ upToZero t ++ upToZero u ++ [0] = t ++ u ++ [0] := by
  cases u with
  | nil =>
    rw [List.append_nil] at h
    rcases upToZero_dropLast h with hAll | hLast
    · refine .inr ?_
      rw [← hAll, upToZero_nil]
    · refine .inl ?_
      rw [upToZero_nil, List.append_nil, List.append_nil, ← hLast]
  | cons d u =>
    rw [List.dropLast_append_cons, List.mem_append, not_or] at h
    rw [upToZero_of_notMem h.1]
    rcases upToZero_dropLast h.2 with hAll | hLast
    · refine .inr ?_
      rw [← hAll]
    · refine .inl ?_
      rw [List.append_assoc, ← hLast]

/-- The bytes of elements that are read up to a zero. -/
theorem prefix_of_words {bigEndian : Bool} {t : Text} {es : List Nat}
    (h : (words bigEndian t).takeWhile (· ≠ 0) = es) : bytesOf true bigEndian es <+: t := by
  obtain ⟨rest, hRest⟩ := List.takeWhile_prefix (p := (· ≠ 0)) (l := words bigEndian t)
  have hBytes := bytes_words bigEndian t
  rw [← hRest, h, bytesOf_append] at hBytes
  exact (List.prefix_append _ _).trans hBytes

theorem words_sum {bigEndian : Bool} {t : Text} {es : List Nat} (hFits : ∀ e ∈ es, e < 2 ^ 32)
    (hNe : ∀ e ∈ es, e ≠ 0)
    (h : t = bytesOf true bigEndian es ∨ t = bytesOf true bigEndian es ++ [0]) :
    (words bigEndian t).takeWhile (· ≠ 0) = es := by
  have hTake : (es ++ ([] : List Nat)).takeWhile (· ≠ 0) = es := by
    rw [takeWhile_ne es [] hNe]
    exact List.append_nil es
  rcases h with hAll | hLast
  · have hWords := @words_bytes bigEndian es hFits []
    rw [List.append_nil] at hWords
    rw [hAll, hWords]
    exact hTake
  · rw [hLast, words_bytes hFits]
    exact hTake

/-- For which arrays the operators work on the elements. -/
theorem string_operators_iff (v x : CharArray) : Works v x ↔ BytesSuffice v x := by
  constructor
  · intro hWorks
    obtain ⟨r, hr, -⟩ := hWorks.1
    obtain ⟨hv, hx⟩ := zero_mem_of_concat hr
    obtain ⟨hSum, hOrder⟩ := (works_iff hv hx).1 hWorks
    refine ⟨hv, hx, fun hWide => ?_⟩
    rw [hWide] at hSum
    obtain ⟨hLeft, hRight, hSame, hLast⟩ := suffice_of_sum hWide (prefix_of_words hSum)
    refine ⟨hLeft, hRight, hSame, hLast, ?_⟩
    rw [bytesOf_append] at hLast
    rw [v.upToZero_wide hLeft, x.upToZero_wide hRight, hSame,
      orderOf_upToZero (by rw [bytesOf_length]; omega) (by rw [bytesOf_length]; omega) hLast]
      at hOrder
    rw [← orderOf_lt Nat.lt_irrefl, ← hOrder]
    exact orderOf_lt (fun c => by simp) _ _
  · rintro ⟨hv, hx, hBytes⟩
    rw [works_iff hv hx]
    cases hWide : v.wide || x.wide with
    | false =>
      have hWorks := narrow_works hWide
      rwa [hWide] at hWorks
    | true =>
      obtain ⟨hLeft, hRight, hSame, hLast, hOrder⟩ := hBytes hWide
      rw [v.upToZero_wide hLeft, x.upToZero_wide hRight, hSame]
      have hFits : ∀ e ∈ v.string ++ x.string, e < 2 ^ 32 := fun e he =>
        (List.mem_append.1 he).elim (v.string_lt e) (x.string_lt e)
      have hNe : ∀ e ∈ v.string ++ x.string, e ≠ 0 := fun e he =>
        (List.mem_append.1 he).elim (v.string_ne e) (x.string_ne e)
      rw [bytesOf_append] at hLast
      refine ⟨words_sum hFits hNe ?_, ?_⟩
      · rw [bytesOf_append]
        exact sum_of_suffice hLast
      · rw [orderOf_upToZero (by rw [bytesOf_length]; omega) (by rw [bytesOf_length]; omega) hLast]
        refine orderOf_congr (fun c => by simp) Nat.lt_irrefl ?_ hOrder.symm
        exact ⟨bytesOf_inj v.string_lt x.string_lt, congrArg _⟩

/-- `L"ab"` and `L"ac"` are equal for the code. -/
theorem not_string_operators : ¬ ∀ v x : CharArray, Works v x := by
  intro hAll
  have hFits : ∀ e ∈ ([97, 98, 0] : List Nat), e < if true then 2 ^ 32 else 2 ^ 8 := by decide
  have hFits' : ∀ e ∈ ([97, 99, 0] : List Nat), e < if true then 2 ^ 32 else 2 ^ 8 := by decide
  obtain ⟨b, hb, hOn⟩ := (hAll ⟨true, false, _, hFits⟩ ⟨true, false, _, hFits'⟩).2 .eq
  have hEqual :
    Comparison.eq.run (bytesOf true false [97, 98, 0]) (bytesOf true false [97, 99, 0]) =
      some true := by decide
  have hSame : ([97, 98] : List Nat) = [97, 99] := hOn.1 (Option.some.inj (hb.symm.trans hEqual))
  exact absurd hSame (by decide)

end

end TcfAgent.StringOperators
