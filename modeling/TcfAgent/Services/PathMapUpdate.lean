import TcfAgent.Lib.Attempt
import TcfAgent.Lib.Blocks
import TcfAgent.Framework.JsonObject
import TcfAgent.Services.PathMapping

/-!
# Rules of a path map and their attributes

`update_rule` of `services/pathmap.c`: a rule is given a new list of attributes. An attribute that
is there already, with the same value, stays; the others are replaced, and the typed ones are read.
A field is freed before its value is read, which can raise an exception.

A pointer has the address of a block and what was stored there; whether the block is live is in the
heap. The strings of an attribute are freed with it, and are not kept apart.

Main results:

* `updateRule_ends` — what becomes of the fields and the blocks of a rule.
-/

namespace TcfAgent.PathMap

open TcfAgent.Lib TcfAgent.Lib.Attempt TcfAgent.Lib.Blocks TcfAgent.JsonText TcfAgent.PathNames

/-! ## Fields -/

/-- The fields of a rule. -/
inductive Field where
  | src
  | dst
  | prot
  | host
  | query
  | ctx
deriving DecidableEq, Repr

def field {α : Type} (t : PathMapRule α) : Field → Option α
  | .src => t.src
  | .dst => t.dst
  | .prot => t.prot
  | .host => t.host
  | .query => t.query
  | .ctx => t.ctx

def withField {α : Type} (t : PathMapRule α) (f : Field) (a : Option α) : PathMapRule α :=
  match f with
  | .src => { t with src := a }
  | .dst => { t with dst := a }
  | .prot => { t with prot := a }
  | .host => { t with host := a }
  | .query => { t with query := a }
  | .ctx => { t with ctx := a }

/-- The comparisons with `PATH_MAP_SOURCE` and the others. -/
def fieldOf (name : Text) : Option Field :=
  if name = ascii "Source" then some .src
  else if name = ascii "Destination" then some .dst
  else if name = ascii "Protocol" then some .prot
  else if name = ascii "Host" then some .host
  else if name = ascii "ContextQuery" then some .query
  else if name = ascii "Context" then some .ctx
  else none

section

variable {α : Type} {t : PathMapRule α} {f g : Field} {a : Option α}

@[simp] theorem field_withField : field (withField t f a) f = a := by
  rcases f with - | - | - | - | - | - <;> rfl

theorem field_withField_of_ne (h : g ≠ f) : field (withField t f a) g = field t g := by
  rcases f with - | - | - | - | - | - <;> rcases g with - | - | - | - | - | - <;>
    first | rfl | exact absurd rfl h

end

/-! ## Rules -/

/-- A pointer to a string. -/
structure Str where
  block : Nat
  text  : Text
deriving DecidableEq, Repr

/-- `PathMapRuleAttribute`, with the address of its block. -/
structure Attribute where
  block : Nat
  name  : Text
  value : Text
deriving DecidableEq, Repr

structure Rule where
  attrs : List Attribute
  typed : PathMapRule Str
deriving DecidableEq, Repr

/-- A rule as `memset` makes it. -/
def Rule.empty : Rule := ⟨[], ⟨none, none, none, none, none, none⟩⟩

/-- The strings and the attributes. -/
structure Heap where
  strings    : Blocks
  attributes : Blocks
deriving DecidableEq, Repr

def Heap.empty : Heap := ⟨.empty, .empty⟩

/-- The heap, and the rule that is updated. -/
structure RuleState where
  heap : Heap
  rule : Rule
deriving DecidableEq, Repr

abbrev Update (α : Type) := Attempt RuleState Unit α

/-- `loc_free` of a string -/
def freeString : Option Str → Update Unit
  | none => pure ⟨⟩
  | some p => do
    let strings ← orFault ((← get).heap.strings.free p.block)
    modify fun s => { s with heap.strings := strings }

/-- `loc_free` of an attribute and its strings -/
def freeAttribute (a : Attribute) : Update Unit := do
  let attributes ← orFault ((← get).heap.attributes.free a.block)
  modify fun s => { s with heap.attributes := attributes }

def newAttribute (name value : Text) : Update Attribute := do
  let block := (← get).heap.attributes.next
  modify fun s => { s with heap.attributes := s.heap.attributes.alloc }
  return ⟨block, name, value⟩

/-- The attribute is linked to the end of the list of the rule. -/
def link (a : Attribute) : Update Unit :=
  modify fun s => { s with rule.attrs := s.rule.attrs ++ [a] }

def setField (f : Field) (p : Option Str) : Update Unit :=
  modify fun s => { s with rule.typed := withField s.rule.typed f p }

/-- The field is freed, and read again from the value. -/
def readField (f : Field) (value : Text) : Update Unit := do
  freeString (field (← get).rule.typed f)
  match jsonReadAllocString value with
  | none => raise ⟨⟩
  | some (none, _) => setField f none
  | some (some text, _) => do
    let block := (← get).heap.strings.next
    modify fun s => { s with heap.strings := s.heap.strings.alloc }
    setField f (some ⟨block, text⟩)

/-- The field is freed, and becomes `NULL`. -/
def clearField (f : Field) : Update Unit := do
  freeString (field (← get).rule.typed f)
  setField f none

/-- What is done for the name of a typed attribute. -/
def onField (name : Text) (p : Field → Update Unit) : Update Unit :=
  match fieldOf name with
  | none => pure ⟨⟩
  | some f => p f

/-- The first old attribute of this name, and the others. -/
def takeOld (name : Text) : List Attribute → Option (Attribute × List Attribute)
  | [] => none
  | a :: old =>
      if a.name = name then some (a, old) else (takeOld name old).map fun (o, rest) =>
      (o, a :: rest)

/-- The loop over the old attributes that are left. -/
def dropOld : (diff : Nat) → List Attribute → Update Nat
  | diff, [] => pure diff
  | diff, a :: old => do
    onField a.name clearField
    freeAttribute a
    dropOld (diff + 1) old

/-- The loop over the new attributes. -/
def updateLoop : (diff : Nat) → (old new : List Attribute) → Update Nat
  | diff, old, [] => dropOld diff old
  | diff, old, a :: new =>
    match takeOld a.name old with
    | some (o, old) =>
      if o.value = a.value then do
        link o
        freeAttribute a
        updateLoop diff old new
      else do
        freeAttribute o
        link a
        onField a.name (readField · a.value)
        updateLoop (diff + 1) old new
    | none => do
      link a
      onField a.name (readField · a.value)
      updateLoop (diff + 1) old new

/-- `update_rule` -/
def updateRule (new : List Attribute) : Update Nat := do
  let old := (← get).rule.attrs
  modify fun s => { s with rule.attrs := [] }
  updateLoop 0 old new

/-! ## What is in the lists of attributes -/

/-- The name and the value of an attribute. -/
abbrev Attr := Text × Text

def Attribute.attr (a : Attribute) : Attr := (a.name, a.value)

/-- The new attributes, with whether they are not there already with their value, and the old ones
that are left over. -/
def compare : (old : List Attribute) → (new : List Attr) → List (Attr × Bool) × List Attribute
  | old, [] => ([], old)
  | old, a :: new =>
    match takeOld a.1 old with
    | some (o, old) => ((a, o.value ≠ a.2) :: (compare old new).1, (compare old new).2)
    | none => ((a, true) :: (compare old new).1, (compare old new).2)

/-- A typed attribute that cannot be read. -/
def Bad (a : Attr) : Prop := fieldOf a.1 ≠ none ∧ jsonReadAllocString a.2 = none

instance (a : Attr) : Decidable (Bad a) := inferInstanceAs (Decidable (_ ∧ _))

/-- What a value is read as, if it can be read. -/
def readString (value : Text) : Option Text := (jsonReadAllocString value).bind Prod.fst

def readMark (f : Field) (t : Option Text) (m : Attr × Bool) : Option Text :=
  if m.2 = true ∧ fieldOf m.1.1 = some f then readString m.1.2 else t

/-- What the last attribute of the field that is not there already is read as, or else `t`. -/
def readMarks (f : Field) (t : Option Text) (marks : List (Attr × Bool)) : Option Text :=
  marks.foldl (readMark f) t

/-- What the last attribute of the field is read as. -/
def readLast (f : Field) (new : List Attr) : Option Text :=
    readMarks f none (new.map fun a => (a, true))

/-- The string of a field. -/
def contents (t : PathMapRule Str) (f : Field) : Option Text := (field t f).map Str.text

/-- A new attribute that is not there already cannot be read. -/
def Raises (marks : List (Attr × Bool)) : Prop := ∃ m ∈ marks, m.2 = true ∧ Bad m.1

/-- The first attribute that cannot be read is the last one, no old attribute is left over, and its
field is `NULL` already. -/
def Harmless (t : Field → Option Text) (marks : List (Attr × Bool))
    (left : List Attribute) : Prop :=
  left = [] ∧ ∃ pre a f, marks = pre ++ [(a, true)] ∧ ¬ Raises pre ∧ fieldOf a.1 = some f ∧
    jsonReadAllocString a.2 = none ∧ readMarks f (t f) pre = none

/-! ## Blocks -/

/-- The blocks of the strings of a rule. -/
def owned (t : PathMapRule Str) : List Nat :=
  ([t.src, t.dst, t.prot, t.host, t.query, t.ctx].flatMap Option.toList).map Str.block

def blocks (attrs : List Attribute) : List Nat := attrs.map Attribute.block

section

variable {t : PathMapRule Str} {f : Field} {p : Str} {s : RuleState} {R M : List Nat}
  {name value : Text}
  {a : Attribute} {old new : List Attribute} {diff : Nat}

theorem owned_perm (t : PathMapRule Str) (f : Field) (p : Option Str) :
    (owned (withField t f p)).Perm
    (p.toList.map Str.block ++ owned (withField t f none)) := by
  rw [List.perm_iff_count]
  intro b
  rcases f with - | - | - | - | - | - <;>
  · simp only [owned, withField, List.flatMap_cons, List.flatMap_nil, List.map_append,
      List.count_append,
      Option.toList_none, List.map_nil, List.count_nil]
    omega

theorem withField_field (t : PathMapRule Str) (f : Field) : withField t f (field t f) = t := by
  rcases f with - | - | - | - | - | - <;> rfl

theorem owned_field (t : PathMapRule Str) (f : Field) : (owned t).Perm
    ((field t f).toList.map Str.block ++ owned (withField t f none)) := by
  have hPerm := owned_perm t f (field t f)
  rwa [withField_field] at hPerm

theorem contents_withField {q : Option Str} (t : PathMapRule Str) (f g : Field) :
    contents (withField t f q) g = if g = f then q.map Str.text else contents t g := by
  unfold contents
  split
  · rename_i hSame
    rw [hSame, field_withField]
  · rename_i hNe
    rw [field_withField_of_ne hNe]

theorem freeString_run {p : Option Str} (h : Held s.heap.strings (p.toList.map Str.block ++ R)) :
    ∃ strings, freeString p s = (.ok ⟨⟩, { s with heap.strings := strings }) ∧ Held strings R ∧
      (p = none → strings = s.heap.strings) := by
  rcases p with - | p
  · exact ⟨s.heap.strings, rfl, h, fun _ => rfl⟩
  · obtain ⟨strings, hFree, hHeld⟩ := Held.free h
    refine ⟨strings, ?_, hHeld, fun hNone => ?_⟩
    · show (Attempt.orFault (s.heap.strings.free p.block) >>= _) s = _
      rw [hFree]
      rfl
    · cases hNone

theorem freeAttribute_run (h : Held s.heap.attributes (a.block :: M)) :
    ∃ attributes, freeAttribute a s = (.ok ⟨⟩, { s with heap.attributes := attributes }) ∧
      Held attributes M := by
  obtain ⟨attributes, hFree, hHeld⟩ := Held.free h
  refine ⟨attributes, ?_, hHeld⟩
  show (Attempt.orFault (s.heap.attributes.free a.block) >>= _) s = _
  rw [hFree]
  rfl

/-- The field is freed and becomes `NULL`. -/
theorem clearField_run (h : Held s.heap.strings (owned s.rule.typed ++ R)) (f : Field) :
    ∃ strings, clearField f s = (.ok ⟨⟩, ⟨{ s.heap with strings := strings },
        { s.rule with typed := withField s.rule.typed f none }⟩) ∧
      Held strings (owned (withField s.rule.typed f none) ++ R) := by
  have hField : Held s.heap.strings ((field s.rule.typed f).toList.map Str.block ++
      (owned (withField s.rule.typed f none) ++ R)) := by
    refine h.congr ?_
    rw [← List.append_assoc]
    exact (owned_field s.rule.typed f).append_right R
  obtain ⟨strings, hFree, hHeld, -⟩ := freeString_run hField
  refine ⟨strings, ?_, hHeld⟩
  show (freeString (field s.rule.typed f) >>= _) s = _
  rw [bind_of_ok hFree]
  rfl

/-- The field is freed and read; when it cannot be read, it is as before, and its string is not. -/
theorem readField_run (h : Held s.heap.strings (owned s.rule.typed ++ R)) (f : Field)
    (value : Text) :
    match jsonReadAllocString value with
    | none => ∃ strings,
        readField f value s = (.error (.raise ⟨⟩), { s with heap.strings := strings }) ∧
        (field s.rule.typed f = none → strings = s.heap.strings)
    | some (text, _) =>
        ∃ strings p, readField f value s = (.ok ⟨⟩, ⟨{ s.heap with strings := strings },
        { s.rule with typed := withField s.rule.typed f p }⟩) ∧ p.map Str.text = text ∧
        Held strings (owned (withField s.rule.typed f p) ++ R) := by
  have hField : Held s.heap.strings ((field s.rule.typed f).toList.map Str.block ++
      (owned (withField s.rule.typed f none) ++ R)) := by
    refine h.congr ?_
    rw [← List.append_assoc]
    exact (owned_field s.rule.typed f).append_right R
  obtain ⟨strings, hFree, hHeld, hNone⟩ := freeString_run hField
  have hRun : readField f value s = (match jsonReadAllocString value with
      | none => raise ⟨⟩
      | some (none, _) => setField f none
      | some (some text, _) => do
        let block := (← get).heap.strings.next
        modify fun s => { s with heap.strings := s.heap.strings.alloc }
        setField f (some ⟨block, text⟩) : Update Unit) { s with heap.strings := strings } :=
          bind_of_ok hFree
  rw [hRun]
  rcases jsonReadAllocString value with - | ⟨- | text, rest⟩
  · exact ⟨strings, rfl, hNone⟩
  · exact ⟨strings, none, rfl, rfl, hHeld⟩
  · refine ⟨strings.alloc, some ⟨strings.next, text⟩, rfl, rfl, hHeld.alloc.congr ?_⟩
    exact ((owned_perm s.rule.typed f (some ⟨strings.next, text⟩)).append_right R).symm

theorem onField_none {g : Field → Update Unit} (h : fieldOf name = none) : onField name g s =
    (.ok ⟨⟩, s) := by
  rw [onField, h]
  rfl

theorem onField_some {g : Field → Update Unit} (h : fieldOf name = some f) :
    onField name g s = g f s := by
  rw [onField, h]

theorem clearTyped_run (h : Held s.heap.strings (owned s.rule.typed ++ R)) (name : Text) :
    ∃ strings typed, onField name clearField s =
        (.ok ⟨⟩, ⟨{ s.heap with strings := strings }, { s.rule with typed := typed }⟩) ∧
      Held strings (owned typed ++ R) ∧
      ∀ f, contents typed f = if fieldOf name = some f then none else contents s.rule.typed f := by
  rcases hField : fieldOf name with - | g
  · exact ⟨s.heap.strings, s.rule.typed, onField_none hField, h, fun f => rfl⟩
  · obtain ⟨strings, hRun, hHeld⟩ := clearField_run h g
    refine ⟨strings, withField s.rule.typed g none, (onField_some hField).trans hRun, hHeld,
      fun f => ?_⟩
    rw [contents_withField]
    simp only [Option.some.injEq, eq_comm (a := f)]
    rfl

/-- The old attributes that are left over, with their fields, are gone. -/
theorem dropOld_ends (hStrings : Held s.heap.strings (owned s.rule.typed ++ R))
    (hAttributes : Held s.heap.attributes (blocks s.rule.attrs ++ (blocks old ++ M))) :
    Ends (dropOld diff old) (fun _ t => Held t.heap.strings (owned t.rule.typed ++ R) ∧
      Held t.heap.attributes (blocks t.rule.attrs ++ M) ∧
      ∀ f, contents t.rule.typed f =
        if ∃ o ∈ old, fieldOf o.name = some f then none else contents s.rule.typed f)
      (fun _ _ => False) s := by
  induction old generalizing s diff with
  | nil => exact ends_pure ⟨hStrings, hAttributes, fun f => by simp⟩
  | cons o old ih =>
    obtain ⟨strings, typed, hClear, hHeld, hContents⟩ := clearTyped_run hStrings o.name
    have hNode : Held s.heap.attributes (o.block :: (blocks s.rule.attrs ++ (blocks old ++ M))) :=
      hAttributes.congr List.perm_middle
    obtain ⟨attributes, hFree, hRest⟩ :=
      @freeAttribute_run ⟨{ s.heap with strings := strings },
        { s.rule with typed := typed }⟩ _ o hNode
    rw [dropOld, Attempt.ends_bind, ends_of_ok hClear, Attempt.ends_bind, ends_of_ok hFree]
    refine (ih (s := ⟨⟨strings, attributes⟩, { s.rule with typed := typed }⟩) hHeld hRest).mono ?_
    rintro n t ⟨hStr, hAttr, hAll⟩
    refine ⟨hStr, hAttr, fun f => ?_⟩
    rw [hAll f]
    simp only [hContents f, List.exists_mem_cons_iff]
    by_cases hHead : fieldOf o.name = some f
    · simp [hHead]
    · simp [hHead]

theorem readTyped_run (h : Held s.heap.strings (owned s.rule.typed ++ R))
    (hGood : ¬ Bad (name, value)) :
    ∃ strings typed, onField name (readField · value) s =
        (.ok ⟨⟩, ⟨{ s.heap with strings := strings }, { s.rule with typed := typed }⟩) ∧
      Held strings (owned typed ++ R) ∧
      ∀ f, contents typed f = readMark f (contents s.rule.typed f) ((name, value), true) := by
  rcases hField : fieldOf name with - | g
  · refine ⟨s.heap.strings, s.rule.typed, onField_none hField, h, fun f => ?_⟩
    rw [readMark, if_neg (by simp [hField])]
  · have hRead := readField_run h g value
    rcases hValue : jsonReadAllocString value with - | ⟨text, rest⟩
    · exact absurd ⟨by simp [hField], hValue⟩ hGood
    · rw [hValue] at hRead
      obtain ⟨strings, p, hRun, hText, hHeld⟩ := hRead
      refine ⟨strings, _, (onField_some hField).trans hRun, hHeld, fun f => ?_⟩
      rw [contents_withField, readMark]
      simp only [hField, Option.some.injEq, true_and, eq_comm (a := f), hText, readString, hValue]
      rfl

theorem readTyped_raises (h : Held s.heap.strings (owned s.rule.typed ++ R))
    (hBad : Bad (name, value)) :
    ∃ strings f, fieldOf name = some f ∧
      onField name (readField · value) s = (.error (.raise ⟨⟩),
        { s with heap.strings := strings }) ∧
      (contents s.rule.typed f = none → strings = s.heap.strings) := by
  obtain ⟨f, hField⟩ := Option.ne_none_iff_exists'.1 hBad.1
  have hRead := readField_run h f value
  rw [show jsonReadAllocString value = none from hBad.2] at hRead
  obtain ⟨strings, hRun, hSame⟩ := hRead
  exact ⟨strings, f, hField, (onField_some hField).trans hRun, fun hNone =>
    hSame (Option.map_eq_none_iff.1 hNone)⟩

theorem takeOld_some {o : Attribute} {rest : List Attribute}
    (h : takeOld name old = some (o, rest)) :
    old.Perm (o :: rest) := by
  induction old generalizing rest with
  | nil => cases h
  | cons x old ih =>
    rw [takeOld] at h
    split at h
    · cases h
      exact List.Perm.refl _
    · obtain ⟨⟨o', rest'⟩, hTail, hSame⟩ := Option.map_eq_some_iff.1 h
      cases hSame
      exact ((ih hTail).cons x).trans (List.Perm.swap _ _ _)

theorem length_compare (old : List Attribute) (new : List Attr) :
    (compare old new).1.length = new.length := by
  induction new generalizing old with
  | nil => rfl
  | cons a new ih =>
    rw [compare]
    split
    · exact congrArg (· + 1) (ih _)
    · exact congrArg (· + 1) (ih _)

/-- What the loop has to be spared: it does not raise an exception, or does no harm. -/
def Spared (t : Field → Option Text) (marks : List (Attr × Bool)) (left : List Attribute) : Prop :=
  Raises marks → Harmless t marks left

variable {marks : List (Attr × Bool)} {left : List Attribute}

theorem Spared.tail {m : Attr × Bool} {t t' : Field → Option Text}
    (h : Spared t (m :: marks) left) (hGood : ¬ (m.2 = true ∧ Bad m.1))
    (hStep : ∀ f, t' f = readMark f (t f) m) : Spared t' marks left := by
  rintro ⟨x, hx, hBad⟩
  obtain ⟨hLeft, pre, a, f, hMarks, hPre, hField, hRead, hNull⟩ :=
    h ⟨x, List.mem_cons_of_mem _ hx, hBad⟩
  rcases pre with - | ⟨m', pre⟩
  · obtain ⟨rfl, rfl⟩ := List.cons.inj hMarks
    exact absurd hx List.not_mem_nil
  · obtain ⟨rfl, rfl⟩ := List.cons.inj hMarks
    refine ⟨hLeft, pre, a, f, rfl, ?_, hField, hRead, ?_⟩
    · rintro ⟨y, hy, hBadY⟩
      exact hPre ⟨y, List.mem_cons_of_mem _ hy, hBadY⟩
    · rw [hStep f]
      exact hNull

/-- The first attribute cannot be read: it is the only one. -/
theorem Spared.last {b : Attr} {t : Field → Option Text}
    {f : Field} (h : Spared t ((b, true) :: marks) left) (hBad : Bad b)
    (hField : fieldOf b.1 = some f) :
    marks = [] ∧ left = [] ∧ t f = none := by
  obtain ⟨hLeft, pre, a, g, hMarks, hPre, hName, -, hNull⟩ :=
    h ⟨(b, true), List.mem_cons_self, rfl, hBad⟩
  rcases pre with - | ⟨m, pre⟩
  · obtain ⟨hHead, rfl⟩ := List.cons.inj hMarks
    obtain ⟨rfl, -⟩ := Prod.mk.inj hHead
    obtain rfl : f = g := Option.some.inj (hField.symm.trans hName)
    exact ⟨rfl, hLeft, hNull⟩
  · obtain ⟨rfl, -⟩ := List.cons.inj hMarks
    exact absurd ⟨(b, true), List.mem_cons_self, rfl, hBad⟩ hPre

/-- How the loop ends, from marks and what is left over: the blocks are those of the rule, and the
fields are what the marks say. -/
def LoopEnds (s : RuleState) (R M : List Nat) (marks : List (Attr × Bool)) (left : List Attribute)
    (p : Update Nat) : Prop :=
  Ends p
    (fun _ t => ¬ Raises marks ∧ Held t.heap.strings (owned t.rule.typed ++ R) ∧
      Held t.heap.attributes (blocks t.rule.attrs ++ M) ∧
      ∀ f, contents t.rule.typed f =
        if ∃ o ∈ left,
          fieldOf o.name = some f then none else readMarks f (contents s.rule.typed f) marks)
    (fun _ t => Raises marks ∧ Held t.heap.strings (owned t.rule.typed ++ R) ∧
      Held t.heap.attributes (blocks t.rule.attrs ++ M)) s

/-- After a step that reads a mark, or does nothing, the loop goes on. -/
theorem LoopEnds.step {m : Attr × Bool} {p : Update Nat}
    {s' : RuleState} (hGood : ¬ (m.2 = true ∧ Bad m.1))
    (hStep : ∀ f, contents s'.rule.typed f = readMark f (contents s.rule.typed f) m)
    (h : LoopEnds s' R M marks left p) :
    Ends p
      (fun _ t => ¬ Raises (m :: marks) ∧ Held t.heap.strings (owned t.rule.typed ++ R) ∧
        Held t.heap.attributes (blocks t.rule.attrs ++ M) ∧
        ∀ f, contents t.rule.typed f =
          if ∃ o ∈ left, fieldOf o.name = some f then none
          else readMarks f (contents s.rule.typed f) (m :: marks))
      (fun _ t => Raises (m :: marks) ∧ Held t.heap.strings (owned t.rule.typed ++ R) ∧
        Held t.heap.attributes (blocks t.rule.attrs ++ M)) s' := by
  refine h.imp ?_ ?_
  · rintro n t ⟨hQuiet, hStr, hAttr, hAll⟩
    refine ⟨?_, hStr, hAttr, fun f => ?_⟩
    · rintro ⟨x, hx, hBad⟩
      rcases List.mem_cons.1 hx with rfl | hx
      · exact hGood hBad
      · exact hQuiet ⟨x, hx, hBad⟩
    · rw [hAll f, hStep f]
      rfl
  · rintro e t ⟨⟨x, hx, hBad⟩, hStr, hAttr⟩
    exact ⟨⟨x, List.mem_cons_of_mem _ hx, hBad⟩, hStr, hAttr⟩

/-- The loop over the new attributes. -/
theorem updateLoop_ends (hStrings : Held s.heap.strings (owned s.rule.typed ++ R))
    (hAttributes :
    Held s.heap.attributes (blocks s.rule.attrs ++ (blocks old ++ (blocks new ++ M))))
    (hSpared : Spared (contents s.rule.typed) (compare old (new.map Attribute.attr)).1
      (compare old (new.map Attribute.attr)).2) :
    LoopEnds s R M (compare old (new.map Attribute.attr)).1 (compare old (new.map Attribute.attr)).2
      (updateLoop diff old new) := by
  induction new generalizing old s diff with
  | nil =>
    refine (dropOld_ends hStrings hAttributes).imp ?_ fun _ _ hFalse => absurd hFalse not_false
    rintro n t ⟨hStr, hAttr, hAll⟩
    refine ⟨?_, hStr, hAttr, hAll⟩
    rintro ⟨x, hx, -⟩
    exact absurd hx List.not_mem_nil
  | cons a new ih =>
    -- the attribute is linked, and its field is read
    have hReplace : ∀ (s : RuleState) (old : List Attribute),
        Held s.heap.strings (owned s.rule.typed ++ R) →
        Held s.heap.attributes
          (blocks s.rule.attrs ++ (a.block :: (blocks old ++ (blocks new ++ M)))) →
        Spared (contents s.rule.typed) ((a.attr, true) :: (compare old (new.map Attribute.attr)).1)
          (compare old (new.map Attribute.attr)).2 →
        LoopEnds s R M ((a.attr, true) :: (compare old (new.map Attribute.attr)).1)
          (compare old (new.map Attribute.attr)).2 (do
            link a
            onField a.name (readField · a.value)
            updateLoop (diff + 1) old new) := by
      intro s old hStr hAttr hSpare
      have hLinked :
        Held s.heap.attributes
        (blocks (s.rule.attrs ++ [a]) ++ (blocks old ++ (blocks new ++ M))) := by
        rw [blocks, List.map_append, List.append_assoc]
        exact hAttr
      rw [LoopEnds, Attempt.ends_bind, link, ends_of_ok (modify_run _ _), Attempt.ends_bind]
      by_cases hBad : Bad a.attr
      · obtain ⟨strings, f, hField, hRun, hSame⟩ :=
          readTyped_raises (s := { s with rule.attrs := s.rule.attrs ++ [a] }) hStr hBad
        obtain ⟨hMarks, hLeft, hNull⟩ := hSpare.last hBad hField
        have hNew : new = [] := by
          have hLength := length_compare old (new.map Attribute.attr)
          rw [hMarks] at hLength
          exact List.eq_nil_of_length_eq_zero (by simpa using hLength.symm)
        subst hNew
        obtain rfl : old = [] := hLeft
        rw [ends_of_raise hRun]
        refine ⟨⟨_, List.mem_cons_self, rfl, hBad⟩, ?_, hLinked⟩
        rw [hSame hNull]
        exact hStr
      · obtain ⟨strings, typed, hRun, hHeld, hContents⟩ :=
          readTyped_run (s := { s with rule.attrs := s.rule.attrs ++ [a] }) hStr hBad
        rw [ends_of_ok hRun]
        refine LoopEnds.step (fun hAll => hBad hAll.2) hContents (ih hHeld hLinked ?_)
        exact hSpare.tail (fun hAll => hBad hAll.2) hContents
    rw [List.map_cons] at hSpared ⊢
    -- a new attribute, one that changes, one that stays
    rcases hTake : takeOld a.name old with - | ⟨o, rest⟩
    · have hCompare : compare old (a.attr :: new.map Attribute.attr) =
          ((a.attr, true) :: (compare old (new.map Attribute.attr)).1,
            (compare old (new.map Attribute.attr)).2) := by
        rw [compare, show takeOld a.attr.1 old = none from hTake]
      rw [hCompare] at hSpared ⊢
      rw [updateLoop, hTake]
      exact hReplace s old hStrings (hAttributes.congr (List.perm_middle.append_left _)) hSpared
    · have hCompare : compare old (a.attr :: new.map Attribute.attr) =
          ((a.attr, decide (o.value ≠ a.value)) :: (compare rest (new.map Attribute.attr)).1,
            (compare rest (new.map Attribute.attr)).2) := by
        rw [compare, show takeOld a.attr.1 old = some (o, rest) from hTake]
        rfl
      -- taking an attribute off the old list only permutes the blocks
      have hTaken : Held s.heap.attributes (o.block :: (a.block :: (blocks s.rule.attrs ++
          (blocks rest ++ (blocks new ++ M))))) := by
        refine hAttributes.congr (List.perm_iff_count.2 fun b => ?_)
        have hOld : (blocks old).count b = (o.block :: blocks rest).count b :=
          ((takeOld_some hTake).map Attribute.block).count_eq b
        simp only [blocks, List.map_cons, List.cons_append, List.count_append,
          List.count_cons] at hOld ⊢
        omega
      rw [hCompare] at hSpared ⊢
      rw [updateLoop, hTake]
      dsimp only at hSpared ⊢
      by_cases hSame : o.value = a.value
      · -- the old attribute stays
        rw [if_pos hSame, LoopEnds, Attempt.ends_bind, link, ends_of_ok (modify_run _ _),
          Attempt.ends_bind]
        have hNode : Held s.heap.attributes (a.block :: (blocks (s.rule.attrs ++ [o]) ++
            (blocks rest ++ (blocks new ++ M)))) := by
          refine hTaken.congr (List.perm_iff_count.2 fun b => ?_)
          simp only [blocks, List.map_append, List.map_cons, List.map_nil, List.count_append,
            List.count_cons,
            List.count_nil]
          omega
        obtain ⟨attributes, hFree, hRest⟩ :=
          freeAttribute_run (s := { s with rule.attrs := s.rule.attrs ++ [o] }) hNode
        rw [ends_of_ok hFree]
        have hMark : ∀ f, contents s.rule.typed f =
            readMark f (contents s.rule.typed f) (a.attr, decide (o.value ≠ a.value)) := by
          intro f
          rw [readMark, if_neg (by simp [hSame])]
        have hGood : ¬ (decide (o.value ≠ a.value) = true ∧ Bad a.attr) := by simp [hSame]
        exact LoopEnds.step hGood hMark (ih hStrings hRest (hSpared.tail hGood hMark))
      · rw [if_neg hSame, LoopEnds, Attempt.ends_bind]
        obtain ⟨attributes, hFree, hRest⟩ := freeAttribute_run hTaken
        rw [ends_of_ok hFree, decide_eq_true hSame]
        rw [decide_eq_true hSame] at hSpared
        exact hReplace { s with heap.attributes := attributes } rest hStrings
          (hRest.congr List.perm_middle.symm) hSpared

/-- What becomes of a rule: when nothing is raised, its fields are what the marks say. -/
theorem updateRule_ends (new : List Attribute)
    (hStrings : Held s.heap.strings (owned s.rule.typed ++ R))
    (hAttributes : Held s.heap.attributes (blocks s.rule.attrs ++ (blocks new ++ M)))
    (hSpared : Spared (contents s.rule.typed) (compare s.rule.attrs (new.map Attribute.attr)).1
      (compare s.rule.attrs (new.map Attribute.attr)).2) :
    LoopEnds s R M (compare s.rule.attrs (new.map Attribute.attr)).1
      (compare s.rule.attrs (new.map Attribute.attr)).2 (updateRule new) := by
  rw [LoopEnds, updateRule, Attempt.ends_bind]
  refine ends_get (Attempt.ends_bind.2 (ends_modify ?_))
  exact updateLoop_ends (s := { s with rule.attrs := [] }) hStrings hAttributes hSpared

end

end TcfAgent.PathMap
