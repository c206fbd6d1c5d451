import TcfAgent.Lib.Segments
import TcfAgent.Services.ContextQueryParser

/-!
# What a context query selects

By its definition a query selects a context when the path to it, or the end of the path, splits
into segments that the parts match. `match` goes the other way, from the context up to the root.

Main results:

* `matchAll_iff`     — how far up the parts have to reach for the matcher;
* `selects_core`     — by the definition, a leading `**` takes whatever is in front;
* `definition_iff`   — when the matcher follows the definition.
-/

namespace TcfAgent.ContextQuery

open TcfAgent.JsonText (Text isDigit ascii)
open TcfAgent.Lib (Pattern)
open TcfAgent.Lib.Pattern

/-! ## The way up -/

section

variable {ε : Type} {c d : Context ε} {f : Context ε → Bool}

theorem Context.up_root (h : c.parent = none) : c.up = [c] := by
  cases c with
  | root data => rfl
  | child data p => cases h

theorem Context.up_parent (h : c.parent = some d) : c.up = c :: d.up := by
  cases c with
  | root data => cases h
  | child data p =>
    cases h
    rfl

theorem Context.up_ne_nil (c : Context ε) : c.up ≠ [] := by
  cases c <;> exact List.cons_ne_nil _ _

theorem Context.path_ne_nil (c : Context ε) : c.path ≠ [] := by
  rw [Context.path, Ne, List.reverse_eq_nil_iff]
  exact c.up_ne_nil

theorem Context.up_head {t : List (Context ε)} (h : c.up = d :: t) : c = d := by
  cases c <;>
  · cases h
    rfl

theorem Context.mem_up_self (c : Context ε) : c ∈ c.up := by
  cases c <;> exact List.mem_cons_self

/-- What is left of the way up starts at a context too. -/
theorem Context.up_suffix {s t : List (Context ε)} (h : c.up = s ++ t) (hNe : t ≠ []) :
    ∃ d : Context ε, t = d.up := by
  induction c generalizing s with
  | root data =>
    rcases s with - | ⟨x, s⟩
    · exact ⟨.root data, h.symm⟩
    · rw [Context.up, List.cons_append, List.cons.injEq] at h
      exact absurd (List.append_eq_nil_iff.1 h.2.symm).2 hNe
  | child data p ih =>
    rcases s with - | ⟨x, s⟩
    · exact ⟨.child data p, h.symm⟩
    · rw [Context.up, List.cons_append, List.cons.injEq] at h
      exact ih h.2

theorem Context.mem_up : d ∈ c.up ↔ ∃ s, c.up = s ++ d.up := by
  constructor
  · intro hMem
    induction c with
    | root data =>
      obtain rfl := List.mem_singleton.1 hMem
      exact ⟨[], rfl⟩
    | child data p ih =>
      rcases List.mem_cons.1 hMem with rfl | hMem
      · exact ⟨[], rfl⟩
      · obtain ⟨s, hUp⟩ := ih hMem
        exact ⟨.child data p :: s, by rw [Context.up, hUp, List.cons_append]⟩
  · rintro ⟨s, hUp⟩
    rw [hUp]
    exact List.mem_append_right s d.mem_up_self

theorem anyUp_eq (f : Context ε → Bool) (c : Context ε) : anyUp f c = c.up.any f := by
  induction c with
  | root data => simp [anyUp, Context.up]
  | child data p ih => simp [anyUp, Context.up, ih]

/-- Some context above, this one included, is matched. -/
theorem anyUp_iff : anyUp f c = true ↔ ∃ s d, c.up = s ++ Context.up d ∧ f d = true := by
  rw [anyUp_eq, List.any_eq_true]
  constructor
  · rintro ⟨d, hMem, hd⟩
    obtain ⟨s, hUp⟩ := Context.mem_up.1 hMem
    exact ⟨s, d, hUp, hd⟩
  · rintro ⟨s, d, hUp, hd⟩
    exact ⟨d, Context.mem_up.2 ⟨s, hUp⟩, hd⟩

end

/-! ## The matcher -/

section

variable {ε : Type} {comparators : List (Comparator ε)} {absPath : Bool} {c : Context ε}
  {attr : List Attribute} {attrs core anys : List (List Attribute)}

/-- What the matcher takes a part for. -/
def codePattern (comparators : List (Comparator ε)) (attr : List Attribute) :
    Pattern (Context ε) :=
  if isAnyPath attr then .any else .one fun c => matchAttributes comparators c attr = true

/-- The matcher on the parts, the last one first. -/
def matchAll (comparators : List (Comparator ε)) (absPath : Bool) :
    List (List Attribute) → Context ε → Bool
  | [], _ => !absPath
  | attr :: attrs, c => matchPath comparators absPath attr attrs c

theorem runContextQuery_eq (comparators : List (Comparator ε)) (c : Context ε) (q : Query) :
    runContextQuery comparators c q = matchAll comparators q.absPath q.attrs c := by
  unfold runContextQuery
  split
  · next hAttrs => rw [hAttrs, matchAll]
  · next hAttrs => rw [hAttrs, matchAll]

theorem matchAll_any_last (hAny : isAnyPath attr = true) :
    matchAll comparators absPath [attr] c = true := by
  simp [matchAll, matchPath, hAny]

theorem matchAll_any (hAny : isAnyPath attr = true) (hNe : attrs ≠ []) :
    matchAll comparators absPath (attr :: attrs) c =
      anyUp (matchAll comparators absPath attrs) c := by
  obtain ⟨part, attrs, rfl⟩ := List.exists_cons_of_ne_nil hNe
  simp only [matchAll, matchPath, hAny, if_true]
  rfl

theorem matchAll_one_last (hAny : isAnyPath attr = false) :
    matchAll comparators absPath [attr] c = true ↔
      matchAttributes comparators c attr = true ∧ (absPath = true → c.parent = none) := by
  simp only [matchAll, matchPath, hAny, Bool.false_eq_true, if_false]
  cases absPath <;> cases c.parent <;> simp

theorem matchAll_one (hAny : isAnyPath attr = false) (hNe : attrs ≠ []) :
    matchAll comparators absPath (attr :: attrs) c = true ↔
      matchAttributes comparators c attr = true ∧
        ∃ p, c.parent = some p ∧ matchAll comparators absPath attrs p = true := by
  obtain ⟨part, attrs, rfl⟩ := List.exists_cons_of_ne_nil hNe
  simp only [matchAll, matchPath, hAny, Bool.false_eq_true, if_false]
  cases c.parent with
  | none => simp
  | some p =>
    cases matchPath comparators absPath part attrs p <;> simp [and_comm]

/-- Parts that are all `**` match every context. -/
theorem matchAll_anys (hAnys : ∀ attr ∈ anys, isAnyPath attr = true) (hNe : anys ≠ []) :
    matchAll comparators absPath anys c = true := by
  induction anys with
  | nil => exact absurd rfl hNe
  | cons attr anys ih =>
    have hAny := hAnys attr List.mem_cons_self
    by_cases hNil : anys = []
    · subst hNil
      exact matchAll_any_last hAny
    · have hRest := ih (fun a ha => hAnys a (List.mem_cons_of_mem attr ha)) hNil
      rw [matchAll_any hAny hNil, anyUp_iff]
      exact ⟨[], c, rfl, hRest⟩

/-- What may be left of the way up above the contexts that the parts behind the leading `**` take:
nothing in an absolute query, and something when there is a `**`. -/
def Above (absPath : Bool) (anys : List (List Attribute)) (rest : List (Context ε)) : Prop :=
  (anys = [] → absPath = true → rest = []) ∧ (anys ≠ [] → rest ≠ [])

theorem codePattern_any (hAny : isAnyPath attr = true) : codePattern comparators attr = .any :=
  if_pos hAny

theorem codePattern_one (hAny : isAnyPath attr = false) :
    codePattern comparators attr = .one fun c => matchAttributes comparators c attr = true :=
  if_neg (Bool.eq_false_iff.1 hAny)

/-- The last of the parts that are not all `**`, which is the first one written. -/
theorem matchAll_first (hAny : isAnyPath attr = false)
    (hAnys : ∀ attr ∈ anys, isAnyPath attr = true) :
    matchAll comparators absPath (attr :: anys) c = true ↔
      ∃ rest, c.up = c :: rest ∧ matchAttributes comparators c attr = true ∧
        Above absPath anys rest := by
  by_cases hNil : anys = []
  · subst hNil
    rw [matchAll_one_last hAny]
    rcases hParent : c.parent with - | p
    · rw [Context.up_root hParent]
      simp [Above]
    · rw [Context.up_parent hParent]
      simp [Above, p.up_ne_nil]
  · rw [matchAll_one hAny hNil]
    rcases hParent : c.parent with - | p
    · rw [Context.up_root hParent]
      simp [Above, hNil]
    · rw [Context.up_parent hParent]
      simp [Above, hNil, p.up_ne_nil, matchAll_anys hAnys hNil]

/-- How far up the parts have to reach. -/
theorem matchAll_iff (hAny : isAnyPath attr = false)
    (hAnys : ∀ attr ∈ anys, isAnyPath attr = true) :
    matchAll comparators absPath (core ++ attr :: anys) c = true ↔
      ∃ s rest, c.up = s ++ rest ∧
        Splits ((core ++ [attr]).map (codePattern comparators)) s ∧ Above absPath anys rest := by
  induction core generalizing c with
  | nil =>
    rw [List.nil_append, matchAll_first hAny hAnys, List.nil_append, List.map_singleton,
      codePattern_one hAny]
    constructor
    · rintro ⟨rest, hUp, hc, hAbove⟩
      exact ⟨[c], rest, hUp, splits_singleton.2 ⟨c, rfl, hc⟩, hAbove⟩
    · rintro ⟨_, rest, hUp, hSplits, hAbove⟩
      obtain ⟨d, rfl, hd⟩ := splits_singleton.1 hSplits
      obtain rfl := Context.up_head hUp
      exact ⟨rest, hUp, hd, hAbove⟩
  | cons part core ih =>
    have hNe : core ++ attr :: anys ≠ [] := by simp
    -- the parts that are left take some context
    have hTakes : ∀ s, Splits ((core ++ [attr]).map (codePattern comparators)) s → s ≠ [] := by
      intro s hSplits
      refine hSplits.ne_nil (p := fun c => matchAttributes comparators c attr = true) ?_
      rw [← codePattern_one hAny]
      exact List.mem_map_of_mem (by simp)
    rw [List.cons_append, List.cons_append, List.map_cons]
    rcases hPart : isAnyPath part
    -- a part that stands for one context, and one that stands for any number
    · rw [matchAll_one hPart hNe, codePattern_one hPart]
      constructor
      · rintro ⟨hc, p, hParent, hMatch⟩
        obtain ⟨s, rest, hUp, hSplits, hAbove⟩ := ih.1 hMatch
        refine ⟨c :: s, rest, ?_, splits_one_cons.2 ⟨c, s, rfl, hc, hSplits⟩, hAbove⟩
        rw [Context.up_parent hParent, hUp, List.cons_append]
      · rintro ⟨_, rest, hUp, hSplits, hAbove⟩
        obtain ⟨d, t, rfl, hd, ht⟩ := splits_one_cons.1 hSplits
        rw [List.cons_append] at hUp
        obtain rfl := Context.up_head hUp
        rcases hParent : c.parent with - | p
        · rw [Context.up_root hParent, List.cons.injEq] at hUp
          exact absurd (List.append_eq_nil_iff.1 hUp.2.symm).1 (hTakes t ht)
        · rw [Context.up_parent hParent, List.cons.injEq] at hUp
          exact ⟨hd, p, rfl, ih.2 ⟨t, rest, hUp.2, ht, hAbove⟩⟩
    · rw [matchAll_any hPart hNe, anyUp_iff, codePattern_any hPart]
      constructor
      · rintro ⟨s, d, hUp, hMatch⟩
        obtain ⟨t, rest, hUp', hSplits, hAbove⟩ := ih.1 hMatch
        refine ⟨s ++ t, rest, ?_, splits_any_cons.2 ⟨s, t, rfl, hSplits⟩, hAbove⟩
        rw [hUp, hUp', List.append_assoc]
      · rintro ⟨_, rest, hUp, hSplits, hAbove⟩
        obtain ⟨s, t, rfl, ht⟩ := splits_any_cons.1 hSplits
        rw [List.append_assoc] at hUp
        obtain ⟨d, hd⟩ := Context.up_suffix hUp
          (List.append_ne_nil_of_left_ne_nil (hTakes t ht) rest)
        exact ⟨s, d, by rw [hUp, hd], ih.2 ⟨t, rest, hd.symm, ht, hAbove⟩⟩

end

/-! ## The definition -/

/-- The comparators, as the service sets them up: `Name` is compared by `cmp_name`. -/
structure Table (ε : Type) where
  list : List (Comparator ε)
  name : ∃ c, Registered list (ascii "Name") c ∧ c.callback = cmpName

section

variable {ε : Type}

/-- The name of a context. One without a name goes by its ID. -/
def Context.called (c : Context ε) : Text := c.data.name.getD c.data.id

/-- A wildcard says nothing of the context. -/
def Item.HoldsAt (table : Table ε) (c : Context ε) : Item → Prop
  | .string s => c.called = s.value
  | .property name value => Holds table.list c name.value value.value
  | .star => True
  | .starStar => True

def isStarStar : List Item → Bool
  | [.starStar] => true
  | _ => false

/-- `**` takes any sequence of contexts, and every other part takes one of which its items
hold. -/
def partPattern (table : Table ε) (part : List Item) : Pattern (Context ε) :=
  if isStarStar part then .any else .one fun c => ∀ i ∈ part, i.HoldsAt table c

/-- The path to the context has an end, which is all of it when the query is absolute, that splits
into segments for the parts. -/
def Selects (table : Table ε) (absolute : Bool) (parts : List (List Item)) (c : Context ε) :
    Prop :=
  ∃ front back, c.path = front ++ back ∧ (absolute = true → front = []) ∧
    Splits (parts.map (partPattern table)) back

def Item.IsProperty : Item → Prop
  | .property _ _ => True
  | _ => False

/-- `part = string | "*" | "**" | properties` -/
inductive IsPart : List Item → Prop
  | string (s : Str) : IsPart [.string s]
  | star : IsPart [.star]
  | starStar : IsPart [.starStar]
  | properties (part : List Item) (hNe : part ≠ []) (h : ∀ i ∈ part, i.IsProperty) : IsPart part

/-- A well-formed query, as the grammar has it. -/
structure WellFormed extends Derivation where
  plain : items.Plain
  parts : ∀ part ∈ items.parts, IsPart part

/-- The matcher, run on what the parser has made of the query, tells whether the context is
selected. -/
def MeetsDefinition (table : Table ε) (c : Context ε) (q : WellFormed) : Prop :=
  ∃ r, Parses q.text (r, none) ∧
    (runContextQuery table.list c r = true ↔ Selects table q.absolute q.items.parts c)

/-- A string is taken for the wildcard it spells, also when it is quoted. -/
def Item.reading : Item → Item
  | .string s => if s.value = [42] then .star else if s.value = [42, 42] then .starStar
    else .string s
  | i => i

def readings (parts : List (List Item)) : List (List Item) := parts.map (List.map Item.reading)

/-- The query starts with `**`, and what comes after takes the whole path from the root on and
nothing less. -/
def OnlyWhole (table : Table ε) (parts : List (List Item)) (c : Context ε) : Prop :=
  parts.head?.any isStarStar = true ∧
    Splits ((parts.dropWhile isStarStar).map (partPattern table)) c.path ∧
    ∀ front back, c.path = front ++ back → front ≠ [] →
      ¬ Splits ((parts.dropWhile isStarStar).map (partPattern table)) back

/-! ## The matcher tells what the definition says of the query as it reads it -/

variable {table : Table ε} {c : Context ε} {attrs : List (List Attribute)} {absPath : Bool}

theorem head?_any_takeWhile {α : Type} (p : α → Bool) (l : List α) :
    l.head?.any p = true ↔ l.takeWhile p ≠ [] := by
  cases l with
  | nil => simp
  | cons a l => by_cases ha : p a = true <;> simp [ha]

theorem dropWhile_head {α : Type} {p : α → Bool} {l tail : List α} {a : α}
    (h : l.dropWhile p = a :: tail) : p a = false := by
  have hNe : l.dropWhile p ≠ [] := by simp [h]
  have hHead := List.head_dropWhile_not p hNe
  simpa only [h, List.head_cons] using hHead

/-- The parts in the order of the text: the matcher wants something above the first `**`. -/
theorem matchAll_path (comparators : List (Comparator ε)) (hNe : attrs ≠ []) :
    matchAll comparators absPath attrs c = true ↔
      ∃ front back, c.path = front ++ back ∧
        Splits ((attrs.reverse.dropWhile isAnyPath).map (codePattern comparators)) back ∧
        (attrs.reverse.takeWhile isAnyPath = [] → absPath = true → front = []) ∧
        (attrs.reverse.takeWhile isAnyPath ≠ [] → front ≠ []) := by
  have hAttrs : attrs =
      (attrs.reverse.takeWhile isAnyPath ++ attrs.reverse.dropWhile isAnyPath).reverse := by
    rw [List.takeWhile_append_dropWhile, List.reverse_reverse]
  have hAnys : ∀ attr ∈ attrs.reverse.takeWhile isAnyPath, isAnyPath attr = true :=
    fun attr hAttr => List.mem_takeWhile_imp hAttr
  generalize attrs.reverse.takeWhile isAnyPath = anys at hAttrs hAnys
  rcases hDrop : attrs.reverse.dropWhile isAnyPath with - | ⟨attr, core⟩
  · -- all of the parts are `**`
    rw [hDrop, List.append_nil] at hAttrs
    have hAnysNe : anys ≠ [] := by
      rintro rfl
      exact hNe hAttrs
    have hMatch : matchAll comparators absPath attrs c = true := by
      rw [hAttrs]
      exact matchAll_anys (fun attr hAttr => hAnys attr (List.mem_reverse.1 hAttr))
        (mt List.reverse_eq_nil_iff.1 hAnysNe)
    rw [iff_true_left hMatch]
    exact ⟨c.path, [], (List.append_nil _).symm, rfl, fun h => absurd h hAnysNe,
      fun _ => c.path_ne_nil⟩
  · have hAny : isAnyPath attr = false := dropWhile_head hDrop
    rw [hDrop, List.reverse_append, List.reverse_cons, List.append_assoc, List.singleton_append]
      at hAttrs
    rw [hAttrs, matchAll_iff hAny fun a ha => hAnys a (List.mem_reverse.1 ha)]
    have hReverse : ((core.reverse ++ [attr]).map (codePattern comparators)) =
        (((attr :: core).map (codePattern comparators))).reverse := by
      rw [← List.reverse_cons, List.map_reverse]
    simp only [hReverse, Above, ne_eq, List.reverse_eq_nil_iff]
    constructor
    · rintro ⟨s, rest, hUp, hSplits, hAbove⟩
      refine ⟨rest.reverse, s.reverse, ?_, ?_, ?_⟩
      · rw [Context.path, hUp, List.reverse_append]
      · rwa [← splits_reverse, List.reverse_reverse]
      · simpa only [List.reverse_eq_nil_iff] using hAbove
    · rintro ⟨front, back, hUp, hSplits, hAbove⟩
      refine ⟨back.reverse, front.reverse, ?_, splits_reverse.2 hSplits, ?_⟩
      · rw [← List.reverse_append, ← hUp, Context.path, List.reverse_reverse]
      · simpa only [List.reverse_eq_nil_iff] using hAbove

variable {part : List Item}

theorem partPattern_any (h : isStarStar part = true) :
    partPattern table part = .any := if_pos h

/-- Leading `**` take whatever is in front. -/
theorem selects_core (parts : List (List Item)) :
    Selects table absPath parts c ↔
      ∃ front back, c.path = front ++ back ∧
        Splits ((parts.dropWhile isStarStar).map (partPattern table)) back ∧
        (parts.takeWhile isStarStar = [] → absPath = true → front = []) := by
  have hParts := List.takeWhile_append_dropWhile (p := isStarStar) (l := parts)
  have hAnys : ∀ part ∈ parts.takeWhile isStarStar, isStarStar part = true :=
    fun part hPart => List.mem_takeWhile_imp hPart
  generalize parts.takeWhile isStarStar = anys at hParts hAnys
  generalize parts.dropWhile isStarStar = core at hParts
  subst hParts
  constructor
  · rintro ⟨front, back, hPath, hAbs, hSplits⟩
    rw [List.map_append] at hSplits
    obtain ⟨s, t, rfl, hs, ht⟩ := splits_append.1 hSplits
    refine ⟨front ++ s, t, by rw [hPath, List.append_assoc], ht, fun hNil hAbsPath => ?_⟩
    subst hNil
    obtain rfl : s = [] := hs
    rw [hAbs hAbsPath, List.append_nil]
  · rintro ⟨front, back, hPath, hSplits, hAbs⟩
    by_cases hNil : anys = []
    · subst hNil
      exact ⟨front, back, hPath, hAbs rfl, hSplits⟩
    · have hFront : Splits (anys.map (partPattern table)) front := by
        refine splits_anys (fun p hp => ?_) (by simpa using hNil)
        obtain ⟨part, hPart, rfl⟩ := List.mem_map.1 hp
        exact partPattern_any (hAnys part hPart)
      refine ⟨[], c.path, rfl, fun _ => rfl, ?_⟩
      rw [hPath, List.map_append]
      exact splits_append.2 ⟨front, back, rfl, hFront, hSplits⟩

/-! ## Parts as the matcher reads them -/

/-- What an attribute says of a context for the matcher. -/
def Attribute.Says (comparators : List (Comparator ε)) (c : Context ε) (a : Attribute) : Prop :=
  match a.name with
  | some key => matchAttribute comparators c key a.value = true
  | none => a.value = ascii "*" ∨ matchAttribute comparators c (ascii "Name") a.value = true

theorem matchAttributes_iff {comparators : List (Comparator ε)} (attr : List Attribute) :
    matchAttributes comparators c attr = true ↔ ∀ a ∈ attr, a.Says comparators c := by
  induction attr with
  | nil => simp [matchAttributes]
  | cons a attr ih =>
    rw [List.forall_mem_cons, ← ih]
    obtain ⟨- | key, val⟩ := a
    · by_cases hStar : val = ascii "*"
      · simp [matchAttributes, Attribute.Says, hStar]
      · simp [matchAttributes, Attribute.Says, hStar]
    · simp [matchAttributes, Attribute.Says]

/-- `Name` is compared with the name of the context. -/
theorem matchAttribute_name (table : Table ε) (c : Context ε) (val : Text) :
    matchAttribute table.list c (ascii "Name") val = true ↔ c.called = val := by
  obtain ⟨d, hFind, hName⟩ := table.name
  rw [matchAttribute, hFind]
  simp [hName, cmpName, Context.called]

theorem says_property (i : Item) (h : i.IsProperty) :
    i.attr.Says table.list c ↔ i.HoldsAt table c := by
  cases i with
  | property name value => exact matchAttribute_iff table.list c name.value value.value
  | string s => exact h.elim
  | star => exact h.elim
  | starStar => exact h.elim

theorem reading_property (i : Item) (h : i.IsProperty) : i.reading = i := by
  cases i with
  | property name value => rfl
  | string s => exact h.elim
  | star => exact h.elim
  | starStar => exact h.elim

/-- The attributes of a part, as they are published. -/
def published (part : List Item) : List Attribute := (part.map Item.attr).reverse

theorem isAnyPath_properties (h : ∀ i ∈ part, i.IsProperty) :
    isAnyPath (published part) = false := by
  have hNamed : ∀ a ∈ published part, ∃ key, a.name = some key := by
    intro a ha
    obtain ⟨i, hi, rfl⟩ := List.mem_map.1 (List.mem_reverse.1 ha)
    cases i with
    | property name value => exact ⟨name.value, rfl⟩
    | string s => exact (h _ hi).elim
    | star => exact (h _ hi).elim
    | starStar => exact (h _ hi).elim
  generalize published part = attr at hNamed ⊢
  rcases attr with - | ⟨⟨name, val⟩, attr⟩
  · rfl
  · obtain ⟨key, rfl⟩ : ∃ key, name = some key := hNamed ⟨name, val⟩ List.mem_cons_self
    rfl

theorem isStarStar_properties (h : ∀ i ∈ part, i.IsProperty) :
    isStarStar part = false := by
  unfold isStarStar
  split
  · exact (h .starStar List.mem_cons_self).elim
  · rfl

theorem ascii_star : ascii "*" = [42] := rfl

theorem ascii_starStar : ascii "**" = [42, 42] := rfl

theorem isAnyPath_published (h : IsPart part) :
    isAnyPath (published part) = isStarStar (part.map Item.reading) := by
  cases h with
  | string s =>
    by_cases hStar : s.value = [42]
    · simp [published, Item.attr, isAnyPath, Item.reading, hStar, isStarStar, ascii_starStar]
    · by_cases hStarStar : s.value = [42, 42]
      · simp [published, Item.attr, isAnyPath, Item.reading, hStarStar, isStarStar,
          ascii_starStar]
      · simp [published, Item.attr, isAnyPath, Item.reading, hStar, hStarStar, isStarStar,
          ascii_starStar]
  | star => rfl
  | starStar => rfl
  | properties part hNe hPart =>
    have hReading : part.map Item.reading = part := by
      rw [List.map_congr_left fun i hi => reading_property i (hPart i hi), List.map_id']
    rw [hReading, isAnyPath_properties hPart, isStarStar_properties hPart]

theorem says_reading (i : Item) (h : i.reading ≠ .starStar) :
    i.attr.Says table.list c ↔ i.reading.HoldsAt table c := by
  cases i with
  | string s =>
    by_cases hStar : s.value = [42]
    · simp [Item.attr, Attribute.Says, Item.reading, hStar, Item.HoldsAt, ascii_star]
    · have hStarStar : s.value ≠ [42, 42] := by
        intro hValue
        exact h (by simp [Item.reading, hValue])
      simp [Item.attr, Attribute.Says, Item.reading, hStar, hStarStar, Item.HoldsAt, ascii_star,
        matchAttribute_name]
  | property name value => exact says_property _ trivial
  | star => exact iff_of_true (.inl rfl) trivial
  | starStar => exact absurd rfl h

/-- In a part that is not `**` no item is. -/
theorem reading_ne (h : IsPart part)
    (hNot : isStarStar (part.map Item.reading) = false) :
    ∀ i ∈ part, i.reading ≠ .starStar := by
  cases h with
  | string s =>
    intro i hi hReading
    obtain rfl := List.mem_singleton.1 hi
    rw [List.map_singleton, hReading] at hNot
    cases hNot
  | star =>
    intro i hi hReading
    obtain rfl := List.mem_singleton.1 hi
    cases hReading
  | starStar => cases hNot
  | properties part hNe hPart =>
    intro i hi hReading
    have hItem := hPart i hi
    rw [reading_property i hItem] at hReading
    rw [hReading] at hItem
    exact hItem

/-- The matcher takes a part for the pattern of what it reads. -/
theorem codePattern_published (h : IsPart part) :
    codePattern table.list (published part) = partPattern table (part.map Item.reading) := by
  have hAnyPath := isAnyPath_published h
  rcases hAny : isStarStar (part.map Item.reading)
  · rw [hAny] at hAnyPath
    have hNe := reading_ne h hAny
    rw [codePattern_one hAnyPath, partPattern, if_neg (Bool.eq_false_iff.1 hAny)]
    congr 1
    funext c
    rw [matchAttributes_iff]
    simp only [published, List.mem_reverse, List.forall_mem_map]
    exact propext (forall₂_congr fun i hi => says_reading i (hNe i hi))
  · rw [hAny] at hAnyPath
    rw [codePattern_any hAnyPath, partPattern_any hAny]

/-! ## The matcher and the definition -/

theorem takeWhile_map_congr {α β : Type} {p : α → Bool} {q : β → Bool} {f : γ → α} {g : γ → β}
    {l : List γ} (h : ∀ x ∈ l, p (f x) = q (g x)) :
    (l.map f).takeWhile p = [] ↔ (l.map g).takeWhile q = [] := by
  cases l with
  | nil => simp
  | cons x l =>
    have hx := h x List.mem_cons_self
    by_cases hp : p (f x) = true
    · simp [hp, ← hx]
    · simp [hp, ← hx]

theorem dropWhile_map_congr {α β γ δ : Type} {p : α → Bool} {q : β → Bool} {f : γ → α} {g : γ → β}
    {u : α → δ} {v : β → δ} {l : List γ} (h : ∀ x ∈ l, p (f x) = q (g x) ∧ u (f x) = v (g x)) :
    ((l.map f).dropWhile p).map u = ((l.map g).dropWhile q).map v := by
  induction l with
  | nil => rfl
  | cons x l ih =>
    obtain ⟨hp, hu⟩ := h x List.mem_cons_self
    have hRest := ih fun y hy => h y (List.mem_cons_of_mem x hy)
    by_cases hx : q (g x) = true
    · simpa [hp, hx] using hRest
    · have hTail : ∀ y ∈ l, u (f y) = v (g y) := fun y hy => (h y (List.mem_cons_of_mem x hy)).2
      simpa [hp, hx, hu] using hTail

/-- What the matcher says of a well-formed query: it wants something above a leading `**`. -/
theorem runContextQuery_iff (q : WellFormed) (c : Context ε) :
    runContextQuery table.list c ⟨q.items.publish [] [], q.absolute⟩ = true ↔
      ∃ front back, c.path = front ++ back ∧
        Splits (((readings q.items.parts).dropWhile isStarStar).map (partPattern table)) back ∧
        ((readings q.items.parts).takeWhile isStarStar = [] → q.absolute = true → front = []) ∧
        ((readings q.items.parts).takeWhile isStarStar ≠ [] → front ≠ []) := by
  have hParts : (q.items.publish [] []).reverse = q.items.parts.map published := by
    have hLists := attributes_publish q.items q.absolute
    rw [Query.attributes, ← List.map_reverse] at hLists
    have hMap := congrArg (List.map List.reverse) hLists
    simp only [List.map_map] at hMap
    rw [show (List.reverse ∘ List.reverse : List Attribute → List Attribute) = id from
      funext List.reverse_reverse, List.map_id] at hMap
    exact hMap
  have hNe : q.items.publish [] [] ≠ [] := by
    intro hNil
    rw [hNil, List.reverse_nil] at hParts
    exact q.items.parts_ne_nil (List.map_eq_nil_iff.1 hParts.symm)
  have hAny : ∀ part ∈ q.items.parts, isAnyPath (published part) =
      isStarStar (part.map Item.reading) :=
        fun part hPart => isAnyPath_published (q.parts part hPart)
  have hTake := takeWhile_map_congr hAny
  have hPattern : ∀ part ∈ q.items.parts, codePattern table.list (published part) =
      partPattern table (part.map Item.reading) :=
    fun part hPart => codePattern_published (q.parts part hPart)
  have hDrop := dropWhile_map_congr fun part hPart =>
    And.intro (hAny part hPart) (hPattern part hPart)
  rw [runContextQuery_eq, matchAll_path table.list hNe, hParts, hDrop, readings]
  simp only [hTake, ne_eq]

theorem meetsDefinition_iff (q : WellFormed) (c : Context ε) :
    MeetsDefinition table c q ↔
      (runContextQuery table.list c ⟨q.items.publish [] [], q.absolute⟩ = true ↔
        Selects table q.absolute q.items.parts c) := by
  have hParses := parses_items q.absolute q.items q.valid q.plain
  constructor
  · rintro ⟨r, hr, hMeets⟩
    obtain ⟨rfl, -⟩ := Prod.mk.inj (hParses.unique hr)
    exact hMeets
  · intro hMeets
    exact ⟨_, hParses, hMeets⟩

/-- The matcher selects what the query, as it reads it, selects by its definition, unless a
leading `**` would have to take nothing. -/
theorem runContextQuery_selects (q : WellFormed) (c : Context ε) :
    runContextQuery table.list c ⟨q.items.publish [] [], q.absolute⟩ = true ↔
      Selects table q.absolute (readings q.items.parts) c ∧
        ¬ OnlyWhole table (readings q.items.parts) c := by
  rw [runContextQuery_iff, selects_core, OnlyWhole, head?_any_takeWhile]
  constructor
  · rintro ⟨front, back, hPath, hSplits, hAbs, hStarStar⟩
    refine ⟨⟨front, back, hPath, hSplits, hAbs⟩, ?_⟩
    rintro ⟨hLead, -, hOnly⟩
    exact hOnly front back hPath (hStarStar hLead) hSplits
  · rintro ⟨⟨front, back, hPath, hSplits, hAbs⟩, hOnly⟩
    by_cases hLead : (readings q.items.parts).takeWhile isStarStar = []
    · exact ⟨front, back, hPath, hSplits, hAbs, fun h => absurd hLead h⟩
    · by_cases hFront : front = []
      · -- the rest of the parts can also be matched further down
        subst hFront
        obtain rfl : c.path = back := hPath
        by_contra hNone
        refine hOnly ⟨hLead, hSplits, fun front' back' hPath' hFront' hSplits' => hNone ?_⟩
        exact ⟨front', back', hPath', hSplits', fun h => absurd h hLead, fun _ => hFront'⟩
      · exact ⟨front, back, hPath, hSplits, hAbs, fun _ => hFront⟩

/-- The matcher follows the definition of a well-formed query, unless the query starts with `**`
and the rest of it takes the path from the root on and nothing less, or it is selected otherwise
once its quoted `*` and `**` are read as wildcards. -/
theorem definition_iff (table : Table ε) (c : Context ε) (q : WellFormed) :
    MeetsDefinition table c q ↔
      (¬ OnlyWhole table (readings q.items.parts) c ∧
        (Selects table q.absolute (readings q.items.parts) c ↔
          Selects table q.absolute q.items.parts c)) ∨
      (OnlyWhole table (readings q.items.parts) c ∧
        ¬ Selects table q.absolute q.items.parts c) := by
  rw [meetsDefinition_iff, runContextQuery_selects]
  by_cases hOnly : OnlyWhole table (readings q.items.parts) c
  · simp [hOnly]
  · simp [hOnly]

theorem registered_ini : ∃ c, Registered (iniComparators (ε := ε)) (ascii "Name") c ∧
    c.callback = cmpName := ⟨⟨ascii "Name", cmpName⟩, rfl, rfl⟩

/-- The comparators of the service itself. -/
def iniTable : Table ε := ⟨iniComparators, registered_ini⟩

/-- `**/a`, and a context `a` at the root. -/
theorem not_meetsDefinition :
    ¬ ∀ (table : Table Unit) (c : Context Unit) (q : WellFormed), MeetsDefinition table c q := by
  intro hAll
  let a : Item := .string (.symbol ⟨[97], by simp [isSymbolChar]⟩)
  let q : WellFormed :=
    { absolute := false
      items := .more .starStar .slash (.last a)
      valid := trivial
      joined := trivial
      plain := ⟨trivial, trivial⟩
      parts := by
        intro part hPart
        rcases List.mem_cons.1 hPart with rfl | hPart
        · exact .starStar
        · obtain rfl := List.mem_singleton.1 hPart
          exact .string _ }
  let c : Context Unit := .root ⟨[97], none, ()⟩
  have hMeets := (meetsDefinition_iff q c).1 (hAll iniTable c q)
  have hSelects : Selects iniTable q.absolute q.items.parts c := by
    refine ⟨[], [c], rfl, fun _ => rfl, ⟨[], [c], rfl, trivial, [c], [], rfl, ⟨c, rfl, ?_⟩, rfl⟩⟩
    intro i hi
    obtain rfl := List.mem_singleton.1 hi
    rfl
  have hRun := hMeets.2 hSelects
  cases hRun

end

end TcfAgent.ContextQuery
