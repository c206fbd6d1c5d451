import TcfAgent.Services.PathStable

/-!
# File names through path map rules

`map_file_name` of `services/pathmap.c`: the first rule whose conditions hold, and whose source is
the name or the beginning of it, gives the name.

What the host has to tell is in `Host`. A name has no null character; reading behind the one at its
end is a fault.

Main results:

* `mapFileName_iff` — the rules and names with which whole components are rewritten.
-/

namespace TcfAgent.PathNames

open TcfAgent.JsonText (Text ascii)

/-! ## Rules -/

/-- The typed attributes of a rule. -/
structure PathMapRule (α : Type) where
  src   : Option α
  dst   : Option α
  host  : Option α
  prot  : Option α
  query : Option α
  ctx   : Option α
deriving DecidableEq, Repr

abbrev Rule := PathMapRule Text

/-- `PATH_MAP_TO_LOCAL` -/
def pathMapToLocal : Int := 2

/-- The context whose symbols are used. -/
structure Symbols where
  id       : Text
  name     : Option Text
  fullName : Text

/-- What `map_file_name` asks for, with the context it is for. -/
structure Host where
  /-- There is a context. -/
  context      : Bool
  /-- `context_get_group` for the symbols of the context -/
  symbols      : Option Symbols
  /-- `context_query` for the context -/
  contextQuery : Text → Bool
  /-- `is_my_host` -/
  isMyHost     : Text → Bool
  /-- `stat` finds the file. -/
  hasFile      : Text → Bool

/-- `strcasecmp` finds no difference. -/
def sameLetters (s t : Text) : Bool :=
  let lower := fun c : UInt8 => if 65 ≤ c ∧ c ≤ 90 then c + 32 else c
  s.map lower = t.map lower

/-- The context is the one that the rule is for. -/
def contextOk (host : Host) (ctx : Text) : Bool :=
  host.context && match host.symbols with
    | none => false
    | some syms => ctx = syms.id ||
        match syms.name with
        | none => false
        | some name => ctx = name || ctx = syms.fullName

/-- The conditions of a rule, but for its source. -/
def ruleOk (host : Host) (mode : Int) (r : Rule) : Bool :=
  r.prot.all (sameLetters · (ascii "file")) &&
    (mode ≠ pathMapToLocal || r.host.all host.isMyHost) &&
    r.ctx.all (contextOk host) &&
    r.query.all fun query => host.contextQuery query && host.context

/-! ## One rule -/

/-- What the body of the loop does: the rule is passed over, gives a name, or the name is read
behind its end. -/
inductive Mapped where
  | skip
  | name (buf : Text)
  | fault
deriving DecidableEq, Repr

/-- `tmp_strdup2(dst, fnm + k)` -/
def strdup2 (dst fnm : Text) (k : Nat) : Mapped :=
  if k ≤ fnm.length then .name (dst ++ fnm.drop k) else .fault

def lastSeparator (s : Text) : Bool := s.getLast?.any isSeparator

/-- What becomes of the name when the source `raw`, whose canonic form is `src`, is compared with
it. -/
def replaceSource (raw src dst fnm : Text) : Mapped :=
  let k := src.length % 2 ^ 32
  if (src.take k).isPrefixOf fnm then
    match fnm[k]? with
    | none => .name dst
    | some c =>
      if isSeparator c then strdup2 dst fnm (if lastSeparator dst then k + 1 else k)
      else if ¬ lastSeparator dst ∧ ¬ (k ≠ 0 ∧ raw[k - 1]?.any isSeparator) then .skip
      else strdup2 dst fnm ((k + (2 ^ 32 - 1)) % 2 ^ 32)
  else .skip

def applyRule (host : Host) (mode : Int) (fnm : Text) (r : Rule) : Mapped :=
  match r.src, r.dst with
  | some src, some dst =>
    if ruleOk host mode r then
      match replaceSource src (canonicPathMapFileName src) dst fnm with
      | .name buf => if mode ≠ pathMapToLocal ∨ host.hasFile buf then .name buf else .skip
      | other => other
    else .skip
  | _, _ => .skip

/-! ## All rules -/

/-- The name, with the number of the rule that gives it. -/
inductive Result where
  | same
  | mapped (rule : Nat) (buf : Text)
  | fault
deriving DecidableEq, Repr

/-- Rules from number `i` on, one after the other. -/
def mapRules (one : Rule → Mapped) : (i : Nat) → List Rule → Result
  | _, [] => .same
  | i, r :: rules =>
    match one r with
    | .skip => mapRules one (i + 1) rules
    | .name buf => .mapped i buf
    | .fault => .fault

/-- `map_file_name` -/
def mapFileName (host : Host) (mode : Int) (rules : List Rule) (fnm : Text) : Result :=
  mapRules (applyRule host mode fnm) 0 rules

/-! ## Whole components -/

/-- The source is the name, or ends where a component of it does. -/
def Covers (src fnm : Text) : Prop :=
  src <+: fnm ∧ ∀ c, fnm[src.length]? = some c → isSeparator c = true ∨ lastSeparator src = true

instance (src fnm : Text) : Decidable (Covers src fnm) :=
  if h : src <+: fnm ∧ (fnm[src.length]?.all isSeparator ∨ lastSeparator src = true) then
    .isTrue ⟨h.1, fun c hc => h.2.imp_left fun hAll => by rwa [hc] at hAll⟩
  else
    .isFalse fun hCovers => h ⟨hCovers.1, by
      rcases hNext : fnm[src.length]? with - | c
      · exact .inl rfl
      · exact (hCovers.2 c hNext).imp_left id⟩

/-- The remainder without the separator that it begins with. -/
def withoutSeparator : Text → Text
  | [] => []
  | c :: rest => if isSeparator c then rest else c :: rest

/-- The destination, and the remainder behind one separator. -/
def destination (src dst fnm : Text) : Text :=
  if fnm = src then dst
  else dst ++ (if lastSeparator dst then [] else [47]) ++ withoutSeparator (fnm.drop src.length)

/-- What a rule is for. -/
def rewriteRule (host : Host) (mode : Int) (fnm : Text) (r : Rule) : Mapped :=
  match r.src, r.dst with
  | some src, some dst =>
    if ruleOk host mode r ∧ Covers (canonicPathMapFileName src) fnm then
      .name (destination (canonicPathMapFileName src) dst fnm)
    else .skip
  | _, _ => .skip

/-- The source, the destination and the name with which whole components are rewritten. -/
def Whole (raw src dst fnm : Text) : Prop :=
  let k := src.length % 2 ^ 32
  if src.length < 2 ^ 32 then
    src <+: fnm → ∀ c, fnm[k]? = some c → isSeparator c = false →
      lastSeparator dst = false ∧
        (lastSeparator src = true ↔ k ≠ 0 ∧ raw[k - 1]?.any isSeparator = true)
  else
    ¬ Covers src fnm ∧ (src.take k <+: fnm → ∃ c, fnm[k]? = some c ∧ isSeparator c = false ∧
      lastSeparator dst = false ∧ ¬ (k ≠ 0 ∧ raw[k - 1]?.any isSeparator = true))

/-! ## What is behind the source -/

section

variable {raw src dst fnm rest : Text} {c : UInt8}

theorem strdup2_of_le {k : Nat} (h : k ≤ fnm.length) : strdup2 dst fnm k = .name
    (dst ++ fnm.drop k) :=
  if_pos h

/-- A remainder that begins with a separator. -/
theorem destination_separator (hSep : isSeparator 47 = true) :
    destination src dst (src ++ 47 :: rest) =
      dst ++ (if lastSeparator dst then [] else [47]) ++ rest := by
  rw [destination, if_neg (by simp), List.drop_left]
  simp [withoutSeparator, hSep]

/-- A remainder behind a source that ends with a separator. -/
theorem destination_inside (hc : isSeparator c = false) :
    destination src dst (src ++ c :: rest) =
      dst ++ (if lastSeparator dst then [] else [47]) ++ c :: rest := by
  rw [destination, if_neg (by simp), List.drop_left]
  simp [withoutSeparator, hc]

theorem covers_append : Covers src (src ++ c :: rest) ↔
    isSeparator c = true ∨ lastSeparator src = true := by
  constructor
  · rintro ⟨-, hAll⟩
    exact hAll c (by simp)
  · intro hCase
    refine ⟨List.prefix_append _ _, fun d hd => ?_⟩
    obtain rfl : c = d := by simpa using hd
    exact hCase

/-- What a rule is for, once its other conditions hold. -/
def rewriteSource (src dst fnm : Text) : Mapped :=
  if Covers src fnm then .name (destination src dst fnm) else .skip

theorem strdup2_ne_skip (dst fnm : Text) (k : Nat) : strdup2 dst fnm k ≠ .skip := by
  unfold strdup2
  split
  · exact Mapped.noConfusion
  · exact Mapped.noConfusion

/-- The separator is put back by going back to the last character of the source. -/
theorem strdup2_back (hShort : src.length < 2 ^ 32) (hSome : src ≠ []) :
    ∃ d ∈ src, src.getLast? = some d ∧
      strdup2 dst (src ++ rest) ((src.length + (2 ^ 32 - 1)) % 2 ^ 32) =
        .name (dst ++ d :: rest) := by
  obtain ⟨t, d, rfl⟩ : ∃ t d, src = t ++ [d] := ⟨_, _, (List.dropLast_append_getLast hSome).symm⟩
  have hLength : (t ++ [d]).length = t.length + 1 := by simp
  have hBack : ((t ++ [d]).length + (2 ^ 32 - 1)) % 2 ^ 32 = t.length := by omega
  refine ⟨d, by simp, by simp, ?_⟩
  rw [hBack, strdup2_of_le (by simp)]
  simp

/-- The name goes on without a separator behind the source. -/
theorem replaceSource_inside (hShort : src.length < 2 ^ 32) (hFnm : 92 ∉ src)
    (hc : isSeparator c = false) :
    replaceSource raw src dst (src ++ c :: rest) = rewriteSource src dst (src ++ c :: rest) ↔
      lastSeparator dst = false ∧ (lastSeparator src = true ↔
        src.length ≠ 0 ∧ raw[src.length - 1]?.any isSeparator = true) := by
  have hk : src.length % 2 ^ 32 = src.length := Nat.mod_eq_of_lt hShort
  have hNext : (src ++ c :: rest)[src.length]? = some c := by simp
  have hCovers : Covers src (src ++ c :: rest) ↔ lastSeparator src = true := by
    rw [covers_append, hc]
    simp
  have hStart : src.isPrefixOf (src ++ c :: rest) = true := by simp
  rw [replaceSource, rewriteSource]
  simp only [hk, List.take_length, hStart, if_true, hNext, hc, Bool.false_eq_true,
    if_false, hCovers,
    destination_inside hc]
  by_cases hDst : lastSeparator dst = true
  · simp only [hDst, not_true_eq_false, false_and, if_false, if_true, Bool.true_eq_false, iff_false,
      List.append_nil]
    intro hEq
    split at hEq
    · rename_i hLast
      have hSome : src ≠ [] := by
        rintro rfl
        cases hLast
      obtain ⟨d, -, -, hBack⟩ := @strdup2_back src dst (c :: rest) hShort hSome
      rw [hBack] at hEq
      have hLength := congrArg List.length (Mapped.name.inj hEq)
      simp at hLength
    · exact strdup2_ne_skip _ _ _ hEq
  · have hNone : lastSeparator dst = false := Bool.eq_false_of_not_eq_true hDst
    simp only [hNone, Bool.false_eq_true, not_false_eq_true, true_and, if_false]
    by_cases hBehind : src.length ≠ 0 ∧ raw[src.length - 1]?.any isSeparator = true
    · have hSome : src ≠ [] := fun hNil => hBehind.1 (by rw [hNil]; rfl)
      obtain ⟨d, hMem, hLast, hBack⟩ := @strdup2_back src dst (c :: rest) hShort hSome
      rw [if_neg (not_not.2 hBehind), iff_true_right hBehind, hBack]
      constructor
      · intro hEq
        by_contra hNot
        rw [if_neg hNot] at hEq
        cases hEq
      · intro hSource
        have hSlash : d = 47 := by
          rw [lastSeparator, hLast] at hSource
          have hNot : d ≠ 92 := by
            rintro rfl
            exact hFnm hMem
          simpa [isSeparator, hNot] using hSource
        rw [if_pos hSource, hSlash, List.append_assoc]
        rfl
    · rw [if_pos hBehind, iff_false_right hBehind]
      constructor
      · intro hEq hSource
        rw [if_pos hSource] at hEq
        cases hEq
      · intro hSource
        rw [if_neg hSource]

/-- The separator is the first character of the remainder. -/
theorem replaceSource_separator (hShort : src.length < 2 ^ 32) :
    replaceSource raw src dst (src ++ 47 :: rest) = rewriteSource src dst (src ++ 47 :: rest) := by
  have hk : src.length % 2 ^ 32 = src.length := Nat.mod_eq_of_lt hShort
  have hNext : (src ++ 47 :: rest)[src.length]? = some 47 := by simp
  have hSep : isSeparator 47 = true := rfl
  have hStart : src.isPrefixOf (src ++ 47 :: rest) = true := by simp
  rw [replaceSource, rewriteSource, if_pos (covers_append.2 (.inl hSep)),
    destination_separator hSep]
  simp only [hk, List.take_length, hStart, if_true, hNext, hSep]
  by_cases hDst : lastSeparator dst = true
  · rw [if_pos hDst, if_pos hDst, strdup2_of_le (by simp)]
    simp
  · rw [if_neg hDst, if_neg hDst, strdup2_of_le (by simp)]
    simp

theorem replaceSource_self (hShort : src.length < 2 ^ 32) :
    replaceSource raw src dst src = rewriteSource src dst src := by
  have hk : src.length % 2 ^ 32 = src.length := Nat.mod_eq_of_lt hShort
  have hCovers : Covers src src := ⟨List.prefix_refl _, fun c hc => by simp at hc⟩
  have hEnd : src[src.length]? = none := List.getElem?_eq_none (Nat.le_refl _)
  have hStart : src.isPrefixOf src = true := by simp
  rw [replaceSource, rewriteSource, if_pos hCovers, destination, if_pos rfl]
  simp only [hk, List.take_length, hStart, if_true, hEnd]

theorem replaceSource_other (hPrefix : ¬ src <+: fnm) (hShort : src.length < 2 ^ 32) :
    replaceSource raw src dst fnm = rewriteSource src dst fnm := by
  have hk : src.length % 2 ^ 32 = src.length := Nat.mod_eq_of_lt hShort
  rw [replaceSource, rewriteSource, if_neg fun hCovers : Covers src fnm => hPrefix hCovers.1]
  simp only [hk, List.take_length, List.isPrefixOf_iff_prefix]
  rw [if_neg hPrefix]

/-- A source whose length an `unsigned` does not hold is compared with too few characters. -/
theorem replaceSource_long (hLong : 2 ^ 32 ≤ src.length) :
    replaceSource raw src dst fnm = rewriteSource src dst fnm ↔
      ¬ Covers src fnm ∧ replaceSource raw src dst fnm = .skip := by
  constructor
  · intro hEq
    have hNot : ¬ Covers src fnm := by
      intro hCovers
      have hLength := hCovers.1.length_le
      have hMod : src.length % 2 ^ 32 + 2 ^ 32 ≤ src.length := by omega
      obtain ⟨c, hNext⟩ : ∃ c, fnm[src.length % 2 ^ 32]? = some c :=
        ⟨_, List.getElem?_eq_getElem (by omega)⟩
      have hStart : (src.take (src.length % 2 ^ 32)).isPrefixOf fnm = true :=
        List.isPrefixOf_iff_prefix.2 ((List.take_prefix _ _).trans hCovers.1)
      -- what the rule is for leaves less of the name
      have hFew : (destination src dst fnm).length ≤
          dst.length + (if lastSeparator dst then 0 else 1) + (fnm.length - src.length) := by
        have hDrop : ∀ t, (withoutSeparator t).length ≤ t.length := by
          intro t
          unfold withoutSeparator
          split
          · exact Nat.le_refl _
          · split
            · simp
            · exact Nat.le_refl _
        have hRest := hDrop (fnm.drop src.length)
        rw [List.length_drop] at hRest
        unfold destination
        split
        · omega
        · split
          · simp
            omega
          · simp
            omega
      rw [rewriteSource, if_pos hCovers, replaceSource] at hEq
      simp only [hStart, if_true, hNext] at hEq
      -- a shorter cut of the name leaves more of it than the rule says
      have hTaken : ∀ j, j + (if lastSeparator dst then 0 else 1) < src.length →
          strdup2 dst fnm j ≠ .name (destination src dst fnm) := by
        intro j hj hSame
        rw [strdup2_of_le (by omega)] at hSame
        have hBoth := congrArg List.length (Mapped.name.inj hSame)
        rw [List.length_append, List.length_drop] at hBoth
        omega
      split at hEq
      · by_cases hDst : lastSeparator dst = true
        · refine hTaken _ ?_ hEq
          rw [if_pos hDst, if_pos hDst]
          omega
        · refine hTaken _ ?_ hEq
          rw [if_neg hDst, if_neg hDst]
          omega
      · split at hEq
        · cases hEq
        · rename_i hTakes
          refine hTaken _ ?_ hEq
          by_cases hDst : lastSeparator dst = true
          · rw [if_pos hDst]
            omega
          · have hZero : src.length % 2 ^ 32 ≠ 0 := by
              intro hZero
              exact hTakes ⟨hDst, fun h => h.1 hZero⟩
            rw [if_neg hDst]
            omega
    rw [rewriteSource, if_neg hNot] at hEq
    exact ⟨hNot, hEq⟩
  · rintro ⟨hNot, hSkip⟩
    rw [rewriteSource, if_neg hNot, hSkip]

theorem replaceSource_eq_skip : replaceSource raw src dst fnm = .skip ↔
    (src.take (src.length % 2 ^ 32) <+: fnm → ∃ c, fnm[src.length % 2 ^ 32]? = some c ∧
      isSeparator c = false ∧ lastSeparator dst = false ∧
      ¬ (src.length % 2 ^ 32 ≠ 0 ∧ raw[src.length % 2 ^ 32 - 1]?.any isSeparator = true)) := by
  rw [replaceSource]
  simp only [List.isPrefixOf_iff_prefix]
  by_cases hStart : src.take (src.length % 2 ^ 32) <+: fnm
  · rw [if_pos hStart]
    rcases hNext : fnm[src.length % 2 ^ 32]? with - | c
    · refine iff_of_false Mapped.noConfusion fun h => ?_
      obtain ⟨c, hc, -⟩ := h hStart
      cases hc
    · dsimp only
      split
      · rename_i hSep
        refine iff_of_false (strdup2_ne_skip _ _ _) fun h => ?_
        obtain ⟨d, hd, hNone, -⟩ := h hStart
        cases hd
        rw [hSep] at hNone
        cases hNone
      · rename_i hSep
        split
        · rename_i hKept
          refine iff_of_true rfl fun _ => ⟨c, rfl, Bool.eq_false_of_not_eq_true hSep,
            Bool.eq_false_of_not_eq_true hKept.1, hKept.2⟩
        · rename_i hTakes
          refine iff_of_false (strdup2_ne_skip _ _ _) fun h => ?_
          obtain ⟨d, -, -, hDst, hBehind⟩ := h hStart
          exact hTakes ⟨by rw [hDst]; exact Bool.false_ne_true, hBehind⟩
  · rw [if_neg hStart]
    exact iff_of_true rfl fun h => absurd h hStart

/-- The names and rules with which a source is replaced in the right way. -/
theorem replaceSource_iff (hFnm : 92 ∉ fnm) :
    replaceSource raw src dst fnm = rewriteSource src dst fnm ↔ Whole raw src dst fnm := by
  unfold Whole
  by_cases hShort : src.length < 2 ^ 32
  · have hk : src.length % 2 ^ 32 = src.length := Nat.mod_eq_of_lt hShort
    simp only [hShort, if_true, hk]
    by_cases hPrefix : src <+: fnm
    · obtain ⟨rest, rfl⟩ := hPrefix
      rcases rest with - | ⟨c, rest⟩
      · rw [List.append_nil]
        exact iff_of_true (replaceSource_self hShort) fun _ c hc => by simp at hc
      · have hNext : (src ++ c :: rest)[src.length]? = some c := by simp
        rw [hNext]
        by_cases hSep : isSeparator c = true
        · obtain rfl : c = 47 := by
            have hNot : c ≠ 92 := by
              rintro rfl
              exact hFnm (by simp)
            simpa [isSeparator, hNot] using hSep
          refine iff_of_true (replaceSource_separator hShort) fun _ d hd hNone => ?_
          cases hd
          cases hNone
        · have hNone : isSeparator c = false := Bool.eq_false_of_not_eq_true hSep
          rw [replaceSource_inside hShort (fun hMem => hFnm (List.mem_append_left _ hMem)) hNone]
          constructor
          · intro hRight _ d _ _
            exact hRight
          · intro hAll
            exact hAll (List.prefix_append _ _) c rfl hNone
    · exact iff_of_true (replaceSource_other hPrefix hShort) fun h => absurd h hPrefix
  · simp only [hShort, if_false]
    rw [replaceSource_long (Nat.le_of_not_lt hShort), replaceSource_eq_skip]

end

/-! ## All rules -/

section

variable {one other : Rule → Mapped} {rules : List Rule} {i j : Nat} {buf : Text}

theorem mapRules_le (h : mapRules one i rules = .mapped j buf) : i ≤ j := by
  induction rules generalizing i with
  | nil => cases h
  | cons r rules ih =>
    rw [mapRules] at h
    split at h
    · exact Nat.le_of_succ_le (ih h)
    · obtain ⟨rfl, -⟩ := Result.mapped.inj h
      exact Nat.le_refl _
    · cases h

theorem mapRules_ne_fault (hOther : ∀ r, other r ≠ .fault) : mapRules other i rules ≠ .fault := by
  induction rules generalizing i with
  | nil => exact Result.noConfusion
  | cons r rules ih =>
    rw [mapRules]
    split
    · exact ih
    · exact Result.noConfusion
    · rename_i hFault
      exact absurd hFault (hOther r)

/-- Two ways of applying rules give the same when they agree on each rule that is asked. -/
theorem mapRules_eq_iff (hOther : ∀ r, other r ≠ .fault) :
    mapRules one i rules = mapRules other i rules ↔
      ∀ pre r post, rules = pre ++ r :: post → (∀ p ∈ pre, other p = .skip) → one r = other r := by
  induction rules generalizing i with
  | nil =>
    refine iff_of_true rfl fun pre r post hSplit => ?_
    exact absurd hSplit (by simp)
  | cons r rules ih =>
    constructor
    · intro hEq pre p post hSplit hSkips
      have hFirst : one r = other r := by
        rw [mapRules, mapRules] at hEq
        rcases hTwo : other r with - | buf | -
        · rw [hTwo] at hEq
          rcases hOne : one r with - | buf | -
          · rfl
          · rw [hOne] at hEq
            exact absurd (mapRules_le hEq.symm) (by omega)
          · rw [hOne] at hEq
            exact absurd hEq.symm (mapRules_ne_fault hOther)
        · rw [hTwo] at hEq
          rcases hOne : one r with - | buf' | -
          · rw [hOne] at hEq
            exact absurd (mapRules_le hEq) (by omega)
          · rw [hOne] at hEq
            rw [(Result.mapped.inj hEq).2]
          · rw [hOne] at hEq
            cases hEq
        · exact absurd hTwo (hOther r)
      rcases pre with - | ⟨q, pre⟩
      · rw [← (List.cons.inj hSplit).1]
        exact hFirst
      · obtain ⟨rfl, hRest⟩ := List.cons.inj hSplit
        have hSkip := hSkips r List.mem_cons_self
        rw [mapRules, mapRules, hFirst, hSkip] at hEq
        exact ih.1 hEq pre p post hRest fun q hq => hSkips q (List.mem_cons_of_mem _ hq)
    · intro hAll
      have hFirst := hAll [] r rules rfl fun p hp => absurd hp List.not_mem_nil
      rw [mapRules, mapRules, hFirst]
      rcases hTwo : other r with - | buf | -
      · refine ih.2 fun pre p post hSplit hSkips => ?_
        exact hAll (r :: pre) p post (by rw [hSplit]; rfl) (List.forall_mem_cons.2 ⟨hTwo, hSkips⟩)
      · rfl
      · rfl

end

theorem rewriteRule_ne_fault (host : Host) (mode : Int) (fnm : Text) (r : Rule) :
    rewriteRule host mode fnm r ≠ .fault := by
  unfold rewriteRule
  split
  · split
    · exact Mapped.noConfusion
    · exact Mapped.noConfusion
  · exact Mapped.noConfusion

/-- The rule does with the name what it is for. -/
def RightRule (host : Host) (mode : Int) (fnm : Text) (r : Rule) : Prop :=
  ∀ src dst, r.src = some src → r.dst = some dst → ruleOk host mode r = true →
    Whole src (canonicPathMapFileName src) dst fnm

theorem applyRule_iff {host : Host} {mode : Int} {fnm : Text} (hMode : mode ≠ pathMapToLocal)
    (hFnm : 92 ∉ fnm) (r : Rule) :
    applyRule host mode fnm r = rewriteRule host mode fnm r ↔ RightRule host mode fnm r := by
  unfold applyRule rewriteRule RightRule
  rcases hSrc : r.src with - | src
  · exact iff_of_true rfl fun src dst h => by cases h
  · rcases hDst : r.dst with - | dst
    · exact iff_of_true rfl fun src dst _ h => by cases h
    · dsimp only
      by_cases hOk : ruleOk host mode r = true
      · have hSame : (match replaceSource src (canonicPathMapFileName src) dst fnm with
            | .name buf =>
                if mode ≠ pathMapToLocal ∨ host.hasFile buf = true then .name buf else .skip
            | other => other) = replaceSource src (canonicPathMapFileName src) dst fnm := by
          rcases replaceSource src (canonicPathMapFileName src) dst fnm with - | buf | -
          · rfl
          · exact if_pos (.inl hMode)
          · rfl
        simp only [hOk, if_true, true_and]
        rw [hSame]
        refine (replaceSource_iff hFnm).trans ⟨?_, ?_⟩
        · rintro hWhole src' dst' h h' -
          cases h
          cases h'
          exact hWhole
        · intro hAll
          exact hAll src dst rfl rfl trivial
      · rw [if_neg hOk, if_neg fun hBoth => hOk hBoth.1]
        exact iff_of_true rfl fun _ _ _ _ h => absurd h hOk

/-- `map_file_name` replaces whole components exactly when each rule that is asked, in order, has a
name, a source and a destination with which it does. -/
theorem mapFileName_iff (host : Host) (mode : Int) (rules : List Rule) (name : Text)
    (hMode : mode ≠ pathMapToLocal) :
    mapFileName host mode rules (canonicPathMapFileName name) =
        mapRules (rewriteRule host mode (canonicPathMapFileName name)) 0 rules ↔
      ∀ pre r post, rules = pre ++ r :: post →
        (∀ p ∈ pre, rewriteRule host mode (canonicPathMapFileName name) p = .skip) →
        RightRule host mode (canonicPathMapFileName name) r := by
  have hFnm := canonic_noBackslash name
  rw [mapFileName, mapRules_eq_iff (rewriteRule_ne_fault host mode _)]
  simp only [applyRule_iff hMode hFnm]

/-- A host without a context. -/
def noContext : Host := ⟨false, none, fun _ => false, fun _ => true, fun _ => true⟩

def fooToBar (slash : Text) : Rule :=
  ⟨some (ascii "/foo"), some (ascii "/bar" ++ slash), none, none, none, none⟩

/-- With the rule for `/foo`, the name `/foo/x` is a name below `/bar`. -/
theorem mapFileName_iff_inside :
    mapFileName noContext 1 [fooToBar []] (canonicPathMapFileName (ascii "/foo/x")) =
        .mapped 0 (ascii "/bar/x") ∧
      (mapFileName noContext 1 [fooToBar []] (canonicPathMapFileName (ascii "/foo/x")) =
          mapRules (rewriteRule noContext 1 (canonicPathMapFileName (ascii "/foo/x"))) 0
            [fooToBar []] ↔
        ∀ pre r post, [fooToBar []] = pre ++ r :: post →
          (∀ p ∈ pre, rewriteRule noContext 1 (canonicPathMapFileName (ascii "/foo/x")) p = .skip) →
          RightRule noContext 1 (canonicPathMapFileName (ascii "/foo/x")) r) :=
  ⟨by decide, mapFileName_iff _ _ _ _ (by decide)⟩

/-- A rule that maps `/foo` to `/bar/` makes `/foobar` the name `/bar/obar`. -/
theorem mapFileName_foobar :
    mapFileName noContext 1 [fooToBar [47]] (canonicPathMapFileName (ascii "/foobar")) =
        .mapped 0 (ascii "/bar/obar") ∧
      mapRules (rewriteRule noContext 1 (canonicPathMapFileName (ascii "/foobar"))) 0
        [fooToBar [47]] =
        .same := by
  decide

end TcfAgent.PathNames
