import Mathlib.Data.List.Infix
import Mathlib.Tactic

/-!
# Names of symbols

`calc_symbol_name_hash` and `cmp_symbol_names` of `services/tcf_elf.c` both leave out blanks in
front of brackets and do not mind the version that may follow `@@`. The first looks at the next
character of the name, the second at the place where the other name is.

`normal` is a name without the blanks in front of brackets. `SameBase` says of two such names that
they are the same, or that one is the other with a version.

Main results:

* `cmp_eq_zero_iff`   — the comparison is `SameBase` of the names without blanks;
* `sameBase_trans`    — what it takes for `SameBase` to be transitive;
* `hashFrom_eq`       — what the hash is computed of;
* `mem_lookup`        — a lookup sees every symbol whose name has the hash;
* `names_compatible`  — what there is of an equivalence that the hash is compatible with.
-/

namespace TcfAgent.SymbolNames

/-- The characters of a string. The zero at its end is not one of them. -/
abbrev Text := List UInt8

abbrev blank : UInt8 := 0x20

abbrev atSign : UInt8 := 0x40

/-- One of the characters `{`, `(` and `[`. -/
def isBracket (c : UInt8) : Bool := c == 0x7b || c == 0x28 || c == 0x5b

/-- The first character is a bracket. -/
def atBracket (s : Text) : Bool := s.head?.any isBracket

/-! ## The hash -/

/-- `h = (h << 4) + c`, and the highest four bits are folded in. -/
def hashStep (h : BitVec 32) (c : UInt8) : BitVec 32 :=
  let h := (h <<< 4) + c.toBitVec.setWidth 32
  let g := h &&& 0xf0000000
  if g ≠ 0 then (h ^^^ (g >>> 24)) &&& ~~~g else h

/-- The loop of `calc_symbol_name_hash`. -/
def hashFrom (h : BitVec 32) : Text → BitVec 32
  | [] => h
  | c :: s =>
    if c = atSign ∧ s.head? = some atSign then h
    else if c = blank ∧ atBracket s then hashFrom h s
    else hashFrom (hashStep h c) s

/-- `calc_symbol_name_hash` -/
def calcSymbolNameHash (s : Text) : BitVec 32 := hashFrom 0 s

/-! ## The comparison -/

/-- `*x < *y`, `*x > *y`, for a `char` that is signed. -/
def order (cx cy : UInt8) : Int :=
  if cx.toInt8 < cy.toInt8 then -1 else if cy.toInt8 < cx.toInt8 then 1 else 0

/-- A version follows. -/
def atVersion (s : Text) : Bool := [atSign, atSign].isPrefixOf s

/-- `cmp_symbol_names` -/
def cmpSymbolNames : Text → Text → Int
  | [], [] => 0
  | [], cy :: ys => if atVersion (cy :: ys) then 0 else order 0 cy
  | cx :: xs, [] => if atVersion (cx :: xs) then 0 else order cx 0
  | cx :: xs, cy :: ys =>
    if cx = cy then cmpSymbolNames xs ys
    else if cy = blank ∧ isBracket cx then cmpSymbolNames (cx :: xs) ys
    else if cx = blank ∧ isBracket cy then cmpSymbolNames xs (cy :: ys)
    else order cx cy
termination_by x y => x.length + y.length

theorem order_ne_zero {cx cy : UInt8} (h : cx ≠ cy) : order cx cy ≠ 0 := by
  unfold order
  split_ifs with hLess hGreater
  · decide
  · decide
  · intro _
    apply h
    have hSame : cx.toInt8 = cy.toInt8 := by
      rw [← Int8.toInt_inj]
      rw [Int8.lt_iff_toInt_lt] at hLess hGreater
      omega
    simpa using congrArg Int8.toUInt8 hSame

/-! ## Names without blanks in front of brackets -/

def normal : Text → Text
  | [] => []
  | c :: s => if c = blank ∧ atBracket (normal s) then normal s else c :: normal s

/-- The same name, or one of them with a version. -/
def SameBase (u v : Text) : Prop :=
  u = v ∨ u ++ [atSign, atSign] <+: v ∨ v ++ [atSign, atSign] <+: u

variable {c : UInt8}

theorem isBracket_ne (h : isBracket c = true) : c ≠ blank ∧ c ≠ atSign := by
  constructor <;> rintro rfl <;> exact absurd h (by decide)

variable {s : Text}

theorem atBracket_iff : atBracket s = true ↔ ∃ b, s.head? = some b ∧ isBracket b = true := by
  simp [atBracket, Option.any_eq_true]

theorem normal_drop (h : atBracket (normal s) = true) :
    normal (blank :: s) = normal s := by
  rw [normal, if_pos ⟨rfl, h⟩]

theorem normal_keep (h : ¬ (c = blank ∧ atBracket (normal s) = true)) :
    normal (c :: s) = c :: normal s := by
  rw [normal, if_neg h]

theorem normal_of_ne (h : c ≠ blank) (s : Text) : normal (c :: s) = c :: normal s :=
  normal_keep fun hDrop => h hDrop.1

section

variable {u v w : Text} {b c : UInt8}

theorem SameBase.refl (u : Text) : SameBase u u := .inl rfl

theorem SameBase.symm (h : SameBase u v) : SameBase v u := by
  rcases h with rfl | h | h
  · exact .inl rfl
  · exact .inr (.inr h)
  · exact .inr (.inl h)

@[simp] theorem sameBase_cons : SameBase (c :: u) (c :: v) ↔ SameBase u v := by
  simp [SameBase, List.cons_prefix_cons]

theorem sameBase_nil : SameBase [] v ↔ v = [] ∨ [atSign, atSign] <+: v := by
  simp [SameBase, @eq_comm Text []]

/-- Nothing but a version begins with `@` where the other name ends. -/
theorem SameBase.head (h : SameBase u v) (hHead : u.head? = some b) (hb : b ≠ atSign) :
    v.head? = some b := by
  obtain ⟨u, rfl⟩ := List.head?_eq_some_iff.mp hHead
  rcases h with rfl | ⟨t, rfl⟩ | ⟨t, hEq⟩
  · rfl
  · rfl
  · rcases v with _ | ⟨c, v⟩
    · exact absurd (List.cons.inj hEq).1.symm hb
    · rw [List.head?_cons, (List.cons.inj hEq).1]

/-- A name with `@` at its end may have another `@` before the version. -/
theorem sameBase_trans (hThree : ¬ [atSign, atSign, atSign] <:+: v) (hu : SameBase u v)
    (hw : SameBase v w) (hNot : ¬ (v ++ [atSign, atSign] <+: u ∧ v ++ [atSign, atSign] <+: w)) :
    SameBase u w := by
  -- Two names that `v` continues are of the same length, or the longer one has the version of the
  -- other.
  have hBoth : ∀ {p q : Text}, p ++ [atSign, atSign] <+: v → q ++ [atSign, atSign] <+: v →
      p.length ≤ q.length → SameBase p q := by
    intro p q hp hq hLength
    by_cases hShort : q.length = p.length
    · have hSame := List.prefix_of_prefix_length_le hp hq (by simp [hShort])
      exact .inl (List.append_inj_left (hSame.eq_of_length (by simp [hShort])) hShort.symm)
    by_cases hNext : q.length = p.length + 1
    · have hIn : p ++ [atSign, atSign] <+: q ++ [atSign, atSign] :=
        List.prefix_of_prefix_length_le hp hq (by simp; omega)
      obtain ⟨t, ht⟩ := hIn
      obtain ⟨hFront, hTail⟩ := List.append_inj
        (show (p ++ [atSign]) ++ ([atSign] ++ t) = q ++ [atSign, atSign] by simpa using ht)
        (by simp [hNext])
      obtain ⟨t', rfl⟩ := hq
      refine absurd ⟨p, t', ?_⟩ hThree
      rw [← hFront]
      simp
    · exact .inr (.inl ((List.prefix_of_prefix_length_le hp
        ((List.prefix_append q _).trans hq) (by simp; omega))))
  rcases hu with rfl | hu | hu
  · exact hw
  · rcases hw with rfl | hw | hw
    · exact .inr (.inl hu)
    · exact .inr (.inl (hu.trans ((List.prefix_append v _).trans hw)))
    · rcases Nat.le_total u.length w.length with hLe | hLe
      · exact hBoth hu hw hLe
      · exact (hBoth hw hu hLe).symm
  · rcases hw with rfl | hw | hw
    · exact .inr (.inr hu)
    · exact absurd ⟨hu, hw⟩ hNot
    · exact .inr (.inr (hw.trans ((List.prefix_append v _).trans hu)))

end

theorem head_at_iff (s : Text) : (normal s).head? = some atSign ↔ s.head? = some atSign := by
  rcases s with _ | ⟨c, s⟩
  · rfl
  · unfold normal
    split_ifs with hDrop
    · obtain ⟨rfl, hBracket⟩ := hDrop
      obtain ⟨b, hb, hIs⟩ := atBracket_iff.mp hBracket
      have hNot : ¬ blank = atSign := by decide
      simp [hb, (isBracket_ne hIs).2, hNot]
    · rfl

/-- Only blanks in front of brackets are left out, so that no `@` comes next to another. -/
theorem replicate_prefix_iff (n : Nat) (s : Text) :
    List.replicate n atSign <+: normal s ↔ List.replicate n atSign <+: s := by
  induction n generalizing s with
  | zero => simp
  | succ n ih =>
    rcases s with _ | ⟨c, s⟩
    · rfl
    · by_cases hc : c = atSign
      · subst hc
        rw [normal_of_ne (by decide), List.replicate_succ, List.cons_prefix_cons,
          List.cons_prefix_cons, ih]
      · have hHead : (normal (c :: s)).head? ≠ some atSign := by
          rw [ne_eq, head_at_iff]
          simpa using hc
        constructor
        · rintro ⟨t, ht⟩
          rw [← ht] at hHead
          exact absurd rfl hHead
        · rintro ⟨t, ht⟩
          exact absurd (List.cons.inj ht).1.symm hc

theorem infix_of_normal (n : Nat) (h : List.replicate n atSign <:+: normal s) :
    List.replicate n atSign <:+: s := by
  induction s with
  | nil => exact h
  | cons c s ih =>
    by_cases hPrefix : List.replicate n atSign <+: normal (c :: s)
    · exact ((replicate_prefix_iff n _).mp hPrefix).isInfix
    · unfold normal at h hPrefix
      split_ifs at h hPrefix with hDrop
      · exact (ih h).trans (List.suffix_cons c s).isInfix
      · rcases List.infix_cons_iff.mp h with h | h
        · exact absurd h hPrefix
        · exact (ih h).trans (List.suffix_cons c s).isInfix

/-! ## What the comparison accepts -/

variable {x y : Text}

/-- A blank in front of what stands for a bracket in the other name makes no difference. -/
theorem sameBase_blank {cx : UInt8} (hBracket : isBracket cx = true)
    (hHead : (normal x).head? = some cx) :
    SameBase (normal x) (normal (blank :: y)) ↔ SameBase (normal x) (normal y) := by
  obtain ⟨hBlank, hAt⟩ := isBracket_ne hBracket
  by_cases hDrop : atBracket (normal y) = true
  · rw [normal_drop hDrop]
  · rw [normal_keep (by simp [hDrop])]
    constructor
    · intro hSame
      exact absurd (Option.some.inj (hSame.head hHead hAt)).symm hBlank
    · intro hSame
      exact absurd (atBracket_iff.mpr ⟨cx, hSame.head hHead hAt, hBracket⟩) hDrop

theorem sameBase_cons_normal (c : UInt8) (xs ys : Text) :
    SameBase (normal (c :: xs)) (normal (c :: ys)) ↔ SameBase (normal xs) (normal ys) := by
  by_cases hc : c = blank
  · subst hc
    by_cases hx : atBracket (normal xs) = true
    · obtain ⟨b, hb, hBracket⟩ := atBracket_iff.mp hx
      rw [normal_drop hx]
      exact sameBase_blank hBracket hb
    · by_cases hy : atBracket (normal ys) = true
      · obtain ⟨b, hb, hBracket⟩ := atBracket_iff.mp hy
        rw [normal_drop hy]
        have hSwap := sameBase_blank (y := xs) hBracket hb
        exact ⟨fun h => (hSwap.mp h.symm).symm, fun h => (hSwap.mpr h.symm).symm⟩
      · rw [normal_keep (by simp [hx]), normal_keep (by simp [hy]), sameBase_cons]
  · rw [normal_of_ne hc, normal_of_ne hc, sameBase_cons]

theorem sameBase_nil_normal (s : Text) :
    SameBase [] (normal s) ↔ s = [] ∨ atVersion s = true := by
  have hPrefix := replicate_prefix_iff 2 s
  have hNil : normal s = [] ↔ s = [] := by
    rcases s with _ | ⟨c, s⟩
    · exact Iff.rfl
    · unfold normal
      split_ifs with hDrop
      · obtain ⟨b, hb, -⟩ := atBracket_iff.mp hDrop.2
        constructor
        · intro h
          rw [h] at hb
          cases hb
        · nofun
      · simp
  rw [sameBase_nil, hNil]
  exact or_congr Iff.rfl (hPrefix.trans List.isPrefixOf_iff_prefix.symm)

/-- The names go on with different characters, neither of them left out. -/
theorem not_sameBase {cx cy : UInt8} (hNe : cx ≠ cy)
    (hx : ¬ (cx = blank ∧ isBracket cy = true)) (hy : ¬ (cy = blank ∧ isBracket cx = true)) :
    ¬ SameBase (normal (cx :: x)) (normal (cy :: y)) := by
  -- The character that is left is the first one, or a bracket after a blank.
  have hHead : ∀ (c : UInt8) (s : Text), ∃ b, (normal (c :: s)).head? = some b ∧
      (b = c ∨ c = blank ∧ isBracket b = true) := by
    intro c s
    unfold normal
    split_ifs with hDrop
    · obtain ⟨b, hb, hBracket⟩ := atBracket_iff.mp hDrop.2
      exact ⟨b, hb, .inr ⟨hDrop.1, hBracket⟩⟩
    · exact ⟨c, rfl, .inl rfl⟩
  obtain ⟨b, hb, hFrom⟩ := hHead cx x
  obtain ⟨d, hd, hOther⟩ := hHead cy y
  intro hSame
  have hEq : b = d := by
    by_cases hAt : b = atSign
    · by_cases hAt' : d = atSign
      · rw [hAt, hAt']
      · exact Option.some.inj (hb.symm.trans (hSame.symm.head hd hAt'))
    · exact Option.some.inj ((hSame.head hb hAt).symm.trans hd)
  rcases hFrom with rfl | ⟨rfl, hBracket⟩ <;> rcases hOther with rfl | ⟨rfl, hBracket'⟩
  · exact hNe hEq
  · exact hy ⟨rfl, hEq ▸ hBracket'⟩
  · exact hx ⟨rfl, hEq ▸ hBracket⟩
  · exact hNe rfl

theorem cmp_eq_zero_iff (x y : Text) (hx : 0 ∉ x) (hy : 0 ∉ y) :
    cmpSymbolNames x y = 0 ↔ SameBase (normal x) (normal y) := by
  fun_induction cmpSymbolNames x y with
  | case1 => simp [SameBase]
  | case2 cy ys hVersion =>
    exact iff_of_true rfl ((sameBase_nil_normal _).mpr (.inr hVersion))
  | case3 cy ys hVersion =>
    have hNe : (0 : UInt8) ≠ cy := fun h => hy (h ▸ List.mem_cons_self)
    refine iff_of_false (order_ne_zero hNe) ?_
    rw [normal, sameBase_nil_normal]
    simpa using hVersion
  | case4 cx xs hVersion =>
    exact iff_of_true rfl ((sameBase_nil_normal _).mpr (.inr hVersion)).symm
  | case5 cx xs hVersion =>
    have hNe : cx ≠ 0 := fun h => hx (h ▸ List.mem_cons_self)
    refine iff_of_false (order_ne_zero hNe) fun hSame => ?_
    have hNil := (sameBase_nil_normal _).mp hSame.symm
    simp [hVersion] at hNil
  | case6 cx xs ys ih =>
    rw [ih (fun h => hx (.tail _ h)) (fun h => hy (.tail _ h)), sameBase_cons_normal]
  | case7 cx xs cy ys hNe hSkip ih =>
    obtain ⟨rfl, hBracket⟩ := hSkip
    have hHead : (normal (cx :: xs)).head? = some cx := by
      rw [normal_of_ne (isBracket_ne hBracket).1]
      rfl
    rw [ih hx (fun h => hy (.tail _ h)), sameBase_blank hBracket hHead]
  | case8 cx xs cy ys hNe hOther hSkip ih =>
    obtain ⟨rfl, hBracket⟩ := hSkip
    have hHead : (normal (cy :: ys)).head? = some cy := by
      rw [normal_of_ne (isBracket_ne hBracket).1]
      rfl
    have hBlank := sameBase_blank (y := xs) hBracket hHead
    rw [ih (fun h => hx (.tail _ h)) hy]
    exact ⟨fun h => (hBlank.mpr h.symm).symm, fun h => (hBlank.mp h.symm).symm⟩
  | case9 cx xs cy ys hNe hOther hSkip =>
    exact iff_of_false (order_ne_zero hNe) (not_sameBase hNe hSkip hOther)

/-! ## What the hash is computed of -/

/-- The characters in front of the first `@@`. -/
def unversioned : Text → Text
  | [] => []
  | c :: s => if c = atSign ∧ s.head? = some atSign then [] else c :: unversioned s

/-- The name has no two blanks in front of a bracket, and no three `@` in a row. -/
structure Plain (s : Text) : Prop where
  blanks : ∀ b, isBracket b = true → ¬ [blank, blank, b] <:+: s
  ats    : ¬ [atSign, atSign, atSign] <:+: s

theorem Plain.tail (h : Plain (c :: s)) : Plain s where
  blanks b hb hIn := h.blanks b hb (hIn.trans (List.suffix_cons c s).isInfix)
  ats hIn := h.ats (hIn.trans (List.suffix_cons c s).isInfix)

/-- Where the name without blanks begins with a bracket, at most one blank was left out. -/
theorem Plain.head (h : Plain s) {b : UInt8} (hHead : (normal s).head? = some b)
    (hb : isBracket b = true) : s.head? = some b ∨ ∃ r, s = blank :: b :: r := by
  induction s with
  | nil => cases hHead
  | cons c s ih =>
    by_cases hDrop : c = blank ∧ atBracket (normal s) = true
    · obtain ⟨rfl, hBracket⟩ := hDrop
      rw [normal_drop hBracket] at hHead
      rcases ih h.tail hHead with hFirst | ⟨r, rfl⟩
      · obtain ⟨r, rfl⟩ := List.head?_eq_some_iff.mp hFirst
        exact .inr ⟨r, rfl⟩
      · exact absurd ⟨[], r, rfl⟩ (h.blanks b hb)
    · rw [normal_keep hDrop] at hHead
      exact .inl hHead

theorem hashFrom_eq (h : Plain s) (start : BitVec 32) :
    hashFrom start s = (unversioned (normal s)).foldl hashStep start := by
  induction s generalizing start with
  | nil => rfl
  | cons c s ih =>
    rw [hashFrom]
    split_ifs with hVersion hBlank
    · obtain ⟨rfl, hNext⟩ := hVersion
      rw [normal_of_ne (by decide), unversioned, if_pos ⟨rfl, (head_at_iff s).mpr hNext⟩]
      rfl
    · obtain ⟨rfl, hBracket⟩ := hBlank
      obtain ⟨b, hb, hIs⟩ := atBracket_iff.mp hBracket
      obtain ⟨r, rfl⟩ := List.head?_eq_some_iff.mp hb
      have hNormal : normal (b :: r) = b :: normal r := normal_of_ne (isBracket_ne hIs).1 r
      rw [normal_drop (by rw [hNormal]; exact atBracket_iff.mpr ⟨b, rfl, hIs⟩), ih h.tail]
    · have hKeep : ¬ (c = blank ∧ atBracket (normal s) = true) := by
        rintro ⟨rfl, hBracket⟩
        obtain ⟨b, hb, hIs⟩ := atBracket_iff.mp hBracket
        rcases h.tail.head hb hIs with hFirst | ⟨r, rfl⟩
        · exact hBlank ⟨rfl, atBracket_iff.mpr ⟨b, hFirst, hIs⟩⟩
        · exact h.blanks b hIs ⟨[], r, rfl⟩
      rw [normal_keep hKeep, unversioned, if_neg (by rwa [head_at_iff]), ih h.tail]
      rfl

/-- The version is not hashed: without a third `@`, the first `@@` is the one in front of it. -/
theorem unversioned_append (u t : Text)
    (h : ¬ [atSign, atSign, atSign] <:+: u ++ atSign :: atSign :: t) :
    unversioned (u ++ atSign :: atSign :: t) = unversioned u := by
  induction u with
  | nil => simp [unversioned]
  | cons c u ih =>
    have hRest := ih fun hIn => h (hIn.trans (List.suffix_cons c _).isInfix)
    rw [List.cons_append, unversioned, unversioned, hRest]
    rcases u with _ | ⟨d, u⟩
    · have hNot : c ≠ atSign := by
        rintro rfl
        exact h ⟨[], t, rfl⟩
      simp [hNot]
    · rfl

theorem unversioned_eq {u v : Text} (h : SameBase u v)
    (hu : ¬ [atSign, atSign, atSign] <:+: u) (hv : ¬ [atSign, atSign, atSign] <:+: v) :
    unversioned u = unversioned v := by
  rcases h with rfl | ⟨t, rfl⟩ | ⟨t, rfl⟩
  · rfl
  · rw [List.append_assoc] at hv ⊢
    exact (unversioned_append u t hv).symm
  · rw [List.append_assoc] at hu ⊢
    exact unversioned_append v t hu

theorem Plain.normal_ats (h : Plain s) : ¬ [atSign, atSign, atSign] <:+: normal s :=
  fun hIn => h.ats (infix_of_normal 3 hIn)

theorem hash_eq (hx : Plain x) (hy : Plain y)
    (hSame : SameBase (normal x) (normal y)) : calcSymbolNameHash x = calcSymbolNameHash y := by
  rw [calcSymbolNameHash, calcSymbolNameHash, hashFrom_eq hx, hashFrom_eq hy,
    unversioned_eq hSame hx.normal_ats hy.normal_ats]

/-! ## The table -/

/-- `ELF_SymbolInfo`: what the table is made of. -/
structure SymbolInfo where
  sectionIndex : Nat
  type         : Nat
  name         : Option Text
deriving DecidableEq, Repr

abbrev shnUndef : Nat := 0

abbrev sttFile : Nat := 4

/-- The symbols of a section, as `unpack_elf_symbol_info` gives them; the first is none. -/
structure SymbolTable where
  count   : Nat
  symbols : Nat → SymbolInfo

/-- The name under which the symbol is put into the table. -/
def SymbolTable.name (tbl : SymbolTable) (i : Nat) : Option Text :=
  let sym := tbl.symbols i
  if sym.sectionIndex ≠ shnUndef ∧ sym.type ≠ sttFile then sym.name else none

/-- `sym_names_hash` and `sym_names_next` -/
structure NamesHash where
  hash : Nat → Nat
  next : Nat → Nat

variable (tbl : SymbolTable)

/-- `calc_symbol_name_hash(s) % sym_cnt` -/
def SymbolTable.bucket (s : Text) : Nat := (calcSymbolNameHash s).toNat % tbl.count

/-- One round of the loop over the symbols. -/
def addName (t : NamesHash) (i : Nat) : NamesHash :=
  match tbl.name i with
  | none => t
  | some s =>
    let h := tbl.bucket s
    ⟨Function.update t.hash h i, Function.update t.next i (t.hash h)⟩

/-- `create_symbol_names_hash` -/
def createSymbolNamesHash : NamesHash :=
  (List.range tbl.count).foldl (addName tbl) ⟨fun _ => 0, fun _ => 0⟩

/-- The loop of those who look a name up: the indices from `n` on that it comes to. An index is
smaller than the one before it. -/
def chainFrom (t : NamesHash) : (fuel n : Nat) → List Nat
  | 0, _ => []
  | fuel + 1, n => if n = 0 then [] else n :: chainFrom t fuel (t.next n)

/-- The symbols with the name. -/
def lookup (s : Text) : List Nat :=
  let t := createSymbolNamesHash tbl
  (chainFrom t tbl.count (t.hash (tbl.bucket s))).filter fun n =>
    (tbl.name n).any fun s' => cmpSymbolNames s s' == 0

/-- After `k` symbols: every one of them can be reached from its bucket, and indices get smaller. -/
structure Built (k : Nat) (t : NamesHash) : Prop where
  hash    : ∀ h, t.hash h < max k 1
  next    : ∀ i, t.next i < max i 1
  reached : ∀ i < k, 0 < i → ∀ s, tbl.name i = some s →
    ∀ fuel, k ≤ fuel → i ∈ chainFrom t fuel (t.hash (tbl.bucket s))

/-- The entry of a symbol that the chain does not come to is not looked at. -/
theorem chainFrom_update (t : NamesHash) (hash : Nat → Nat) {k n : Nat} (v : Nat)
    (hNext : ∀ i, t.next i < max i 1) (hn : n < max k 1) (fuel : Nat) :
    chainFrom ⟨hash, Function.update t.next k v⟩ fuel n = chainFrom t fuel n := by
  induction fuel generalizing n with
  | zero => rfl
  | succ fuel ih =>
    rw [chainFrom, chainFrom]
    by_cases hZero : n = 0
    · rw [if_pos hZero, if_pos hZero]
    · have hStep := hNext n
      rw [if_neg hZero, if_neg hZero]
      show n :: chainFrom _ fuel (Function.update t.next k v n) = _
      rw [Function.update_of_ne (by omega), ih (by omega)]

/-- What one round preserves. -/
theorem addName_built {k : Nat} {t : NamesHash} (h : Built tbl k t) :
    Built tbl (k + 1) (addName tbl t k) := by
  unfold addName
  rcases hName : tbl.name k with _ | s
  · refine ⟨fun b => (h.hash b).trans_le (by omega), h.next, ?_⟩
    intro i hi hPos s hs fuel hFuel
    have hNe : i ≠ k := by
      rintro rfl
      rw [hName] at hs
      cases hs
    exact h.reached i (by omega) hPos s hs fuel (by omega)
  · have hBucket := h.hash (tbl.bucket s)
    refine ⟨fun b => ?_, fun i => ?_, ?_⟩
    · by_cases hb : b = tbl.bucket s
      · subst hb
        simp
      · have := h.hash b
        simp only [Function.update_of_ne hb]
        omega
    · by_cases hi : i = k
      · subst hi
        simpa using hBucket
      · simpa only [Function.update_of_ne hi] using h.next i
    · intro i hi hPos s' hs' fuel hFuel
      obtain ⟨fuel, rfl⟩ := Nat.exists_eq_add_of_lt (show 0 < fuel by omega)
      rw [Nat.zero_add] at hFuel ⊢
      by_cases hNew : i = k
      · subst hNew
        obtain rfl : s' = s := Option.some.inj (hs'.symm.trans hName)
        simp [chainFrom, Nat.pos_iff_ne_zero.mp hPos]
      · have hOld := h.reached i (by omega) hPos s' hs'
        by_cases hSame : tbl.bucket s' = tbl.bucket s
        · -- The new symbol stands in front of those that were in its bucket.
          have hIn := hOld fuel (by omega)
          rw [hSame] at hIn ⊢
          simp only [Function.update_self]
          rw [chainFrom, if_neg (by omega)]
          simp only [Function.update_self]
          rw [chainFrom_update t _ _ h.next hBucket]
          exact .tail _ hIn
        · simp only [Function.update_of_ne hSame]
          rw [chainFrom_update t _ _ h.next (h.hash _)]
          exact hOld _ (by omega)

theorem create_built : Built tbl tbl.count (createSymbolNamesHash tbl) := by
  unfold createSymbolNamesHash
  induction tbl.count with
  | zero => exact ⟨fun _ => by simp, fun i => by simp, fun i hi => absurd hi (Nat.not_lt_zero i)⟩
  | succ k ih =>
    rw [List.range_succ, List.foldl_append]
    exact addName_built tbl ih

theorem mem_lookup {s s' : Text} {i : Nat} (hi : 0 < i) (hCount : i < tbl.count)
    (hName : tbl.name i = some s') (hHash : calcSymbolNameHash s = calcSymbolNameHash s')
    (hCmp : cmpSymbolNames s s' = 0) : i ∈ lookup tbl s := by
  have hReached := (create_built tbl).reached i hCount hi s' hName tbl.count le_rfl
  refine List.mem_filter.mpr ⟨?_, by simp [hName, hCmp]⟩
  rwa [SymbolTable.bucket, hHash]

/-! ## The hash and the comparison -/

/-- A name, with the zero at its end and no other. -/
structure Name where
  chars : Text
  ends  : 0 ∉ chars

/-- Apart from blanks in front of brackets, `x` is `y` with a version. -/
def Name.Extends (x y : Name) : Prop := normal y.chars ++ [atSign, atSign] <+: normal x.chars

/-- Names that compare as equal have the same hash and are found, as long as they are plain. Every
name compares as equal with itself, the order does not matter, and of three names the middle one may
be left out unless both others are versions of it. -/
theorem names_compatible :
    (∀ x y : Name, Plain x.chars → Plain y.chars → cmpSymbolNames x.chars y.chars = 0 →
      calcSymbolNameHash x.chars = calcSymbolNameHash y.chars) ∧
    (∀ x : Name, cmpSymbolNames x.chars x.chars = 0) ∧
    (∀ x y : Name, cmpSymbolNames x.chars y.chars = 0 → cmpSymbolNames y.chars x.chars = 0) ∧
    (∀ x y z : Name, Plain y.chars → ¬ (x.Extends y ∧ z.Extends y) →
      cmpSymbolNames x.chars y.chars = 0 → cmpSymbolNames y.chars z.chars = 0 →
      cmpSymbolNames x.chars z.chars = 0) ∧
    ∀ (tbl : SymbolTable) (x y : Name) (i : Nat), Plain x.chars → Plain y.chars →
      0 < i → i < tbl.count → tbl.name i = some y.chars →
      cmpSymbolNames x.chars y.chars = 0 → i ∈ lookup tbl x.chars := by
  have hIff : ∀ x y : Name, cmpSymbolNames x.chars y.chars = 0 ↔
      SameBase (normal x.chars) (normal y.chars) :=
    fun x y => cmp_eq_zero_iff x.chars y.chars x.ends y.ends
  refine ⟨?_, ?_, ?_, ?_, ?_⟩
  · intro x y hx hy hCmp
    exact hash_eq hx hy ((hIff x y).mp hCmp)
  · intro x
    exact (hIff x x).mpr (SameBase.refl _)
  · intro x y hCmp
    exact (hIff y x).mpr ((hIff x y).mp hCmp).symm
  · intro x y z hy hNot hxy hyz
    exact (hIff x z).mpr
      (sameBase_trans hy.normal_ats ((hIff x y).mp hxy) ((hIff y z).mp hyz) hNot)
  · intro tbl x y i hx hy hi hCount hName hCmp
    exact mem_lookup tbl hi hCount hName (hash_eq hx hy ((hIff x y).mp hCmp)) hCmp

/-- The name `a` compares as equal with `a@@1` and with `a@@2`, which do not with each other. Two
blanks in front of a bracket compare as equal with one, and so does `a@@@` with `a@`, but their
hashes are not the same. -/
theorem not_compatible :
    (cmpSymbolNames [0x61, 0x40, 0x40, 0x31] [0x61] = 0 ∧
      cmpSymbolNames [0x61] [0x61, 0x40, 0x40, 0x32] = 0 ∧
      cmpSymbolNames [0x61, 0x40, 0x40, 0x31] [0x61, 0x40, 0x40, 0x32] ≠ 0) ∧
    (cmpSymbolNames [0x61, 0x20, 0x20, 0x28] [0x61, 0x20, 0x28] = 0 ∧
      calcSymbolNameHash [0x61, 0x20, 0x20, 0x28] ≠ calcSymbolNameHash [0x61, 0x20, 0x28]) ∧
    cmpSymbolNames [0x61, 0x40, 0x40, 0x40] [0x61, 0x40] = 0 ∧
      calcSymbolNameHash [0x61, 0x40, 0x40, 0x40] ≠ calcSymbolNameHash [0x61, 0x40] := by
  simp [cmpSymbolNames, atVersion, isBracket, order]
  decide +kernel

end TcfAgent.SymbolNames
