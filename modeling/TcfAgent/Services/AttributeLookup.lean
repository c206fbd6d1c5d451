import TcfAgent.Lib.Chain
import TcfAgent.Services.DwarfIo

/-!
# Attributes along a chain of references

The search of `read_dwarf_object_property` in `services/dwarfcache.c`. Where an entry has not the
attribute that is asked for, the search goes on with the entry that its specification, its abstract
origin or its extension refers to, as long as there is one. What is made of the attribute
afterwards, or of none, and the objects that have no entry in a section are not modelled.

What an entry refers to is defined apart from the loop: `reference` takes the first of the three
references that the entry has. The loop is compared with the chain that these references make.

Main results:

* `searchNext_eq` — the loop follows the references;
* `read_iff`      — what the search comes to, it comes to at the end of a chain;
* `reach_finite`  — the chain comes to finitely many entries only;
* `settles_iff`   — the graphs and entries for which the search does what it is for.
-/

namespace TcfAgent.AttributeLookup

open TcfAgent.Lib TcfAgent.DwarfIo
open TcfAgent.Location (Word Failure)

/-! ## Objects -/

/-- `CompUnit`, with its section and the size of the unit. -/
structure CompUnit where
  desc     : UnitDescriptor
  unitSize : Word
  sec      : Nat

/-- `ObjectInfo` -/
structure ObjectInfo where
  id   : Word
  unit : CompUnit

/-- What `find_object` gives. One that it has to load leaves `sDebugSection` as `NULL`; an object
without a unit is missing, too. -/
inductive Found where
  | missing
  | object (o : ObjectInfo) (loaded : Bool)

/-- The sections of a file and of its DWZ file, and the objects in them. -/
structure DebugInfo where
  sections          : Nat → Section
  strings           : Nat → Bool → Except Failure StringTable
  findObject        : Nat → Word → Except Failure Found
  findAltObjectInfo : Word → Except Failure ObjectInfo

/-- An entry, and the variables of the reader that what is read depends on: the others are set
before they are used. -/
structure Cursor where
  unit     : CompUnit
  offset   : Word
  unitSize : Word
  symValue : Word

variable (d : DebugInfo)

def env (unit : CompUnit) : Env := ⟨d.sections unit.sec, some unit.desc, d.strings unit.sec⟩

def cursorOf (o : ObjectInfo) (symValue : Word) : Cursor :=
  ⟨o.unit, o.id - (d.sections o.unit.sec).addr, o.unit.unitSize, symValue⟩

/-! ## Entries -/

def AT_location : BitVec 16 := 0x02

def AT_data_member_location : BitVec 16 := 0x38

def FORM_GNU_REF_ALT : BitVec 16 := 0x1f20

/-- What is remembered of an attribute: its form and its data. -/
structure Property where
  form : BitVec 16
  data : FormData
deriving DecidableEq, Repr

/-- The variables of `get_object_property_callback`. -/
structure Properties where
  wanted         : Property
  specification  : Property
  abstractOrigin : Property
  ext            : Property
deriving DecidableEq, Repr

def noProperty : Property := ⟨0, emptyForm⟩

/-- `get_object_property_callback` -/
def getObjectPropertyCallback (attr : BitVec 16) (p : Properties) (r : Report) : Properties :=
  { wanted := if r.attr = attr then ⟨r.form, r.data⟩ else p.wanted
    specification := if r.attr = AT_specification_v2 then ⟨r.form, r.data⟩ else p.specification
    abstractOrigin := if r.attr = AT_abstract_origin then ⟨r.form, r.data⟩ else p.abstractOrigin
    ext := if r.attr = AT_extension then ⟨r.form, r.data⟩ else p.ext }

variable (attr : BitVec 16)

/-- `gop_gAttr` -/
def target (unit : CompUnit) : BitVec 16 :=
  if unit.desc.version = 1 ∧ attr = AT_data_member_location then AT_location else attr

/-- What is found in an entry, and the variables of the reader after that. -/
def readProperties (c : Cursor) : Except (Stop Failure) (Properties × State) :=
  let read : Io Bool := do
    enterSection (env d c.unit) c.offset
    readEntry (env d c.unit) (target attr c.unit)
  match read ⟨0, c.symValue, emptyForm, c.unitSize, 0, []⟩ with
  | (.error e, _) => .error e
  | (.ok _, s) =>
    .ok (s.reports.foldl (getObjectPropertyCallback (target attr c.unit))
      ⟨noProperty, noProperty, noProperty, noProperty⟩, s)

/-- A reference to an object of the DWZ file. -/
def referAlt (x : Property) (s : State) : Except (Stop Failure) Cursor :=
  match d.findAltObjectInfo x.data.data with
  | .error e => .error (.raise e)
  | .ok o => .ok (cursorOf d o s.symValue)

/-- A reference to an object of the same section. -/
def referObject (name : String) (sec : Nat) (x : Property) (s : State) :
    Except (Stop Failure) Cursor :=
  if isRef x.form = true then
    match d.findObject sec x.data.data with
    | .error e => .error (.raise e)
    | .ok .missing => .error .fault
    | .ok (.object o loaded) =>
      if loaded ∨ sec ≠ o.unit.sec then
        .error (.raise (invDwarf ("Invalid " ++ name ++ " attribute")))
      else .ok (cursorOf d o s.symValue)
  else .error (.raise (invDwarf "FORM_REF expected"))

/-- The entry that an entry without the attribute refers to. -/
def refer (unit : CompUnit) (p : Properties) (s : State) : Except (Stop Failure) (Option Cursor) :=
  if p.specification.form = FORM_GNU_REF_ALT then some <$> referAlt d p.specification s
  else if p.specification.data.data ≠ 0 then
    some <$> referObject d "AT_specification" unit.sec p.specification s
  else if p.abstractOrigin.form = FORM_GNU_REF_ALT then some <$> referAlt d p.abstractOrigin s
  else if p.abstractOrigin.data.data ≠ 0 then
    some <$> referObject d "AT_abstract_origin" unit.sec p.abstractOrigin s
  else if p.ext.data.data ≠ 0 then
    -- The unit stays, also where the reference leads out of it.
    if isRef p.ext.form = true then
      .ok (some ⟨unit, p.ext.data.data - (d.sections unit.sec).addr, s.unitSize, s.symValue⟩)
    else .error (.raise (invDwarf "FORM_REF expected"))
  else .ok none

/-! ## The search -/

/-- How the search goes on: at the next entry, or not at all. -/
def goOn : Except (Stop Failure) (Option Cursor) →
    Cursor ⊕ Except (Stop Failure) (Option Property)
  | .error e => .inr (.error e)
  | .ok none => .inr (.ok none)
  | .ok (some c) => .inl c

/-- One round of the loop. -/
def turn (c : Cursor) : Cursor ⊕ Except (Stop Failure) (Option Property) :=
  match readProperties d attr c with
  | .error e => .inr (.error e)
  | .ok (p, s) =>
    if p.wanted.form ≠ 0 then .inr (.ok (some p.wanted)) else goOn (refer d c.unit p s)

/-- The loop of `read_dwarf_object_property`, for so many entries. -/
def readFrom : Nat → Cursor → Option (Except (Stop Failure) (Option Property))
  | 0, _ => none
  | n + 1, c =>
    match turn d attr c with
    | .inl c' => readFrom n c'
    | .inr result => some result

/-- `read_dwarf_object_property` -/
def readDwarfObjectProperty (n : Nat) (o : ObjectInfo) (symValue : Word) :
    Option (Except (Stop Failure) (Option Property)) := readFrom d attr n (cursorOf d o symValue)

/-! ## What is expected -/

/-- The references of an entry, in the order in which they count. -/
inductive Kind where
  | specification
  | abstractOrigin
  | extension
deriving DecidableEq, Repr

def kinds : List Kind := [.specification, .abstractOrigin, .extension]

def Properties.get (p : Properties) : Kind → Property
  | .specification => p.specification
  | .abstractOrigin => p.abstractOrigin
  | .extension => p.ext

/-- The entry has the reference. An extension is always one of the same file. -/
def Properties.has (p : Properties) (k : Kind) : Bool :=
  (p.get k).data.data ≠ 0 || (k ≠ .extension && (p.get k).form = FORM_GNU_REF_ALT)

/-- The object that a specification or an abstract origin means. -/
def objectOf (sec : Nat) (x : Property) : Option ObjectInfo :=
  if x.form = FORM_GNU_REF_ALT then (d.findAltObjectInfo x.data.data).toOption
  else if isRef x.form = true then
    match d.findObject sec x.data.data with
    | .ok (.object o false) => if o.unit.sec = sec then some o else none
    | _ => none
  else none

/-- The entry that a reference leads to. -/
def destination (unit : CompUnit) (s : State) (x : Property) : Kind → Option Cursor
  | .extension => if isRef x.form = true then
      some ⟨unit, x.data.data - (d.sections unit.sec).addr, s.unitSize, s.symValue⟩
    else none
  | _ => (objectOf d unit.sec x).map fun o => cursorOf d o s.symValue

/-- The entry that an entry refers to by its first reference. -/
def reference (c : Cursor) : Option Cursor :=
  match readProperties d attr c with
  | .error _ => none
  | .ok (p, s) => (kinds.find? p.has).bind fun k => destination d c.unit s (p.get k) k

/-- The attribute of one entry. -/
def attributeOf (c : Cursor) : Option Property :=
  match readProperties d attr c with
  | .error _ => none
  | .ok (p, _) => if p.wanted.form ≠ 0 then some p.wanted else none

/-- The references up to the first entry that has the attribute. -/
def searchNext (c : Cursor) : Option Cursor :=
  if (attributeOf d attr c).isSome then none else reference d attr c

/-- The first entry of the chain of references that has the attribute has this one; or none has. -/
def First (c : Cursor) (r : Option Property) : Prop :=
  ∃ k z, follow (reference d attr) k c = some z ∧ attributeOf d attr z = r ∧
    (r = none → reference d attr z = none) ∧
    ∀ j < k, ∀ y, follow (reference d attr) j c = some y → attributeOf d attr y = none

/-- After finitely many entries there is an exception, or the attribute of the first entry that
has it. -/
def Settles (o : ObjectInfo) (symValue : Word) : Prop :=
  ∃ n result, readDwarfObjectProperty d attr n o symValue = some result ∧ result ≠ .error .fault ∧
    ∀ r, result = .ok r → First d attr (cursorOf d o symValue) r

/-- The entry cannot be read, or it has not the attribute and refers to an object that does not
exist. -/
def Broken (c : Cursor) : Prop :=
  match readProperties d attr c with
  | .error e => e = .fault
  | .ok (p, _) => p.wanted.form = 0 ∧ ∃ k, kinds.find? p.has = some k ∧ k ≠ .extension ∧
      (p.get k).form ≠ FORM_GNU_REF_ALT ∧ isRef (p.get k).form = true ∧
      d.findObject c.unit.sec (p.get k).data.data = .ok .missing

/-! ## One entry -/

section

variable {d attr} {c c' y : Cursor} {p : Properties} {s : State} {x : Property} {name : String}
  {n sec : Nat} {result : Except (Stop Failure) (Option Property)}

theorem has_iff (k : Kind) : p.has k = true ↔
    (p.get k).data.data ≠ 0 ∨ k ≠ .extension ∧ (p.get k).form = FORM_GNU_REF_ALT := by
  rw [Properties.has, Bool.or_eq_true, Bool.and_eq_true, decide_eq_true_eq, decide_eq_true_eq,
    decide_eq_true_eq]

theorem find_specification (h : p.specification.data.data ≠ 0 ∨
    p.specification.form = FORM_GNU_REF_ALT) : kinds.find? p.has = some .specification := by
  have hHas : p.has .specification = true := (has_iff _).2 (h.imp_right fun h => ⟨by decide, h⟩)
  rw [kinds, List.find?_cons_of_pos hHas]

/-- Without a specification the others count. -/
theorem find_others (hData : p.specification.data.data = 0)
    (hForm : p.specification.form ≠ FORM_GNU_REF_ALT) :
    kinds.find? p.has = [Kind.abstractOrigin, .extension].find? p.has := by
  have hNot : ¬ p.has .specification = true := by
    rw [has_iff]
    rintro (h | h)
    · exact h hData
    · exact hForm h.2
  rw [kinds, List.find?_cons_of_neg hNot]

theorem find_origin (h : p.abstractOrigin.data.data ≠ 0 ∨
    p.abstractOrigin.form = FORM_GNU_REF_ALT) :
    [Kind.abstractOrigin, .extension].find? p.has = some .abstractOrigin := by
  have hHas : p.has .abstractOrigin = true := (has_iff _).2 (h.imp_right fun h => ⟨by decide, h⟩)
  rw [List.find?_cons_of_pos hHas]

theorem find_extension (hData : p.abstractOrigin.data.data = 0)
    (hForm : p.abstractOrigin.form ≠ FORM_GNU_REF_ALT) :
    [Kind.abstractOrigin, .extension].find? p.has =
      if p.ext.data.data ≠ 0 then some .extension else none := by
  have hNot : ¬ p.has .abstractOrigin = true := by
    rw [has_iff]
    rintro (h | h)
    · exact h hData
    · exact hForm h.2
  rw [List.find?_cons_of_neg hNot]
  split
  · rename_i hExt
    rw [List.find?_cons_of_pos ((has_iff .extension).2 (.inl hExt))]
  · rename_i hExt
    have hLast : ¬ p.has .extension = true := by
      rw [has_iff]
      rintro (h | h)
      · exact hExt h
      · exact h.1 rfl
    rw [List.find?_cons_of_neg hLast, List.find?_nil]

/-- What following a reference comes to, as far as entries and faults go. -/
def Follows (r : Except (Stop Failure) (Option Cursor)) (entry : Option Cursor)
    (lost : Prop) : Prop :=
  (goOn r).getLeft? = entry ∧ (r = .error .fault ↔ lost)

theorem follows_alt (hForm : x.form = FORM_GNU_REF_ALT) :
    Follows (some <$> referAlt d x s) ((objectOf d sec x).map fun o => cursorOf d o s.symValue)
      (x.form ≠ FORM_GNU_REF_ALT ∧ isRef x.form = true ∧
        d.findObject sec x.data.data = .ok .missing) := by
  unfold objectOf referAlt
  rw [if_pos hForm]
  cases d.findAltObjectInfo x.data.data with
  | error e => exact ⟨rfl, nofun, fun h => absurd hForm h.1⟩
  | ok o => exact ⟨rfl, nofun, fun h => absurd hForm h.1⟩

theorem follows_object (hForm : x.form ≠ FORM_GNU_REF_ALT) :
    Follows (some <$> referObject d name sec x s)
      ((objectOf d sec x).map fun o => cursorOf d o s.symValue)
      (x.form ≠ FORM_GNU_REF_ALT ∧ isRef x.form = true ∧
        d.findObject sec x.data.data = .ok .missing) := by
  unfold objectOf referObject
  rw [if_neg hForm]
  by_cases hRef : isRef x.form = true
  · rw [if_pos hRef, if_pos hRef]
    rcases d.findObject sec x.data.data with e | - | ⟨o, loaded⟩
    · exact ⟨rfl, nofun, fun h => nomatch h.2.2⟩
    · exact ⟨rfl, fun _ => ⟨hForm, hRef, rfl⟩, fun _ => rfl⟩
    · cases loaded with
      | true => exact ⟨rfl, nofun, fun h => nomatch h.2.2⟩
      | false =>
        by_cases hSec : o.unit.sec = sec
        · subst hSec
          simp only [Bool.false_eq_true, ne_eq, not_true_eq_false, or_false, ↓reduceIte]
          exact ⟨rfl, nofun, fun h => nomatch h.2.2⟩
        · simp only [Bool.false_eq_true, ne_eq, Ne.symm hSec, not_false_eq_true,
            or_true, ↓reduceIte,
            if_neg hSec]
          exact ⟨rfl, nofun, fun h => nomatch h.2.2⟩
  · rw [if_neg hRef, if_neg hRef]
    exact ⟨rfl, nofun, fun h => absurd h.2.1 hRef⟩

/-- The code follows the first reference that the entry has. -/
theorem refer_follows (unit : CompUnit) (p : Properties) (s : State) :
    Follows (refer d unit p s)
      ((kinds.find? p.has).bind fun k => destination d unit s (p.get k) k)
      (∃ k, kinds.find? p.has = some k ∧ k ≠ .extension ∧ (p.get k).form ≠ FORM_GNU_REF_ALT ∧
        isRef (p.get k).form = true ∧
        d.findObject unit.sec (p.get k).data.data = .ok .missing) := by
  -- a reference that is not an extension leads to the object that it names
  have hAt {k : Kind} (hk : k ≠ .extension) {r : Except (Stop Failure) (Option Cursor)}
      (hFind : kinds.find? p.has = some k)
      (h : Follows r ((objectOf d unit.sec (p.get k)).map fun o => cursorOf d o s.symValue)
        ((p.get k).form ≠ FORM_GNU_REF_ALT ∧ isRef (p.get k).form = true ∧
          d.findObject unit.sec (p.get k).data.data = .ok .missing)) :
      Follows r ((kinds.find? p.has).bind fun k => destination d unit s (p.get k) k)
        (∃ k, kinds.find? p.has = some k ∧ k ≠ .extension ∧ (p.get k).form ≠ FORM_GNU_REF_ALT ∧
          isRef (p.get k).form = true ∧
          d.findObject unit.sec (p.get k).data.data = .ok .missing) := by
    rw [hFind, Option.bind_some]
    have hDestination : destination d unit s (p.get k) k =
        (objectOf d unit.sec (p.get k)).map fun o => cursorOf d o s.symValue := by
      cases k with
      | specification => rfl
      | abstractOrigin => rfl
      | extension => exact absurd rfl hk
    rw [hDestination]
    refine ⟨h.1, h.2.trans ⟨fun hLost => ⟨k, rfl, hk, hLost⟩, ?_⟩⟩
    rintro ⟨k', hEq, -, hLost⟩
    cases hEq
    exact hLost
  -- the five references in the order of the source
  unfold refer
  by_cases hSpecAlt : p.specification.form = FORM_GNU_REF_ALT
  · rw [if_pos hSpecAlt]
    exact hAt (k := .specification) (by decide)
      (find_specification (.inr hSpecAlt)) (follows_alt hSpecAlt)
  rw [if_neg hSpecAlt]
  by_cases hSpec : p.specification.data.data ≠ 0
  · rw [if_pos hSpec]
    exact hAt (k := .specification) (by decide)
      (find_specification (.inl hSpec)) (follows_object hSpecAlt)
  rw [if_neg hSpec]
  have hOthers := find_others (not_not.1 hSpec) hSpecAlt
  by_cases hOriginAlt : p.abstractOrigin.form = FORM_GNU_REF_ALT
  · rw [if_pos hOriginAlt]
    exact hAt (k := .abstractOrigin) (by decide)
      (hOthers.trans (find_origin (.inr hOriginAlt))) (follows_alt hOriginAlt)
  rw [if_neg hOriginAlt]
  by_cases hOrigin : p.abstractOrigin.data.data ≠ 0
  · rw [if_pos hOrigin]
    exact hAt (k := .abstractOrigin) (by decide)
      (hOthers.trans (find_origin (.inl hOrigin))) (follows_object hOriginAlt)
  rw [if_neg hOrigin]
  rw [hOthers, find_extension (not_not.1 hOrigin) hOriginAlt]
  by_cases hExt : p.ext.data.data ≠ 0
  · rw [if_pos hExt, if_pos hExt, Option.bind_some]
    have hNone : ¬ ∃ k, some Kind.extension = some k ∧ k ≠ .extension ∧
        (p.get k).form ≠ FORM_GNU_REF_ALT ∧ isRef (p.get k).form = true ∧
        d.findObject unit.sec (p.get k).data.data = .ok .missing := by
      rintro ⟨k, ⟨⟩, hk, -⟩
      exact hk rfl
    by_cases hRef : isRef p.ext.form = true
    · rw [if_pos hRef]
      exact ⟨(if_pos hRef).symm, nofun, fun h => absurd h hNone⟩
    · rw [if_neg hRef]
      exact ⟨(if_neg hRef).symm, nofun, fun h => absurd h hNone⟩
  · rw [if_neg hExt, if_neg hExt]
    exact ⟨rfl, nofun, fun ⟨_, h, _⟩ => nomatch h⟩

theorem turn_fault : turn d attr c = .inr (.error .fault) ↔ Broken d attr c := by
  unfold turn Broken
  rcases readProperties d attr c with e | ⟨p, s⟩
  · exact ⟨fun h => Except.error.inj (Sum.inr.inj h), fun h => by rw [h]⟩
  · dsimp only
    split
    · rename_i hForm
      exact ⟨nofun, fun h => absurd h.1 hForm⟩
    · rename_i hForm
      rw [and_iff_right (not_not.1 hForm), ← (refer_follows c.unit p s).2]
      rcases refer d c.unit p s with e | - | c'
      · exact ⟨fun h => congrArg _ (Except.error.inj (Sum.inr.inj h)), fun h => by rw [h]; rfl⟩
      · exact ⟨nofun, nofun⟩
      · exact ⟨nofun, nofun⟩

/-- The attribute is there where the search ends with it, and nowhere else. -/
theorem attributeOf_eq : attributeOf d attr c =
    match turn d attr c with
    | .inr (.ok r) => r
    | _ => none := by
  unfold attributeOf turn
  rcases readProperties d attr c with e | ⟨p, s⟩
  · rfl
  · dsimp only
    split
    · rfl
    · rcases refer d c.unit p s with e | - | c'
      · rfl
      · rfl
      · rfl

/-- A round of the loop goes on where an entry refers to. -/
theorem searchNext_eq : searchNext d attr c = (turn d attr c).getLeft? := by
  unfold searchNext attributeOf reference turn
  rcases readProperties d attr c with e | ⟨p, s⟩
  · rfl
  · dsimp only
    split
    · rfl
    · exact (refer_follows c.unit p s).1.symm

theorem searchNext_of_turn (h : turn d attr c = .inl c') : searchNext d attr c = some c' := by
  rw [searchNext_eq, h]
  rfl

theorem searchNext_of_end (h : turn d attr c = .inr result) : searchNext d attr c = none := by
  rw [searchNext_eq, h]
  rfl

theorem turn_of_searchNext (h : searchNext d attr c = some c') : turn d attr c = .inl c' := by
  rw [searchNext_eq] at h
  rcases hTurn : turn d attr c with y | result
  · rw [hTurn] at h
    exact congrArg _ (Option.some.inj h)
  · rw [hTurn] at h
    cases h

theorem reference_of_searchNext (h : searchNext d attr c = some c') :
    attributeOf d attr c = none ∧ reference d attr c = some c' := by
  unfold searchNext at h
  split at h
  · cases h
  · rename_i hNone
    exact ⟨by simpa using hNone, h⟩

/-! ## Runs -/

/-- The search comes to what the last entry of the chain comes to. -/
theorem read_iff : (∃ n, readFrom d attr n c = some result) ↔
    ∃ k z, follow (searchNext d attr) k c = some z ∧ turn d attr z = .inr result := by
  constructor
  · rintro ⟨n, hRun⟩
    induction n generalizing c with
    | zero => cases hRun
    | succ n ih =>
      unfold readFrom at hRun
      rcases hTurn : turn d attr c with c' | result'
      · rw [hTurn] at hRun
        obtain ⟨k, z, hFollow, hEnd⟩ := ih hRun
        exact ⟨k + 1, z, (follow_of_some (searchNext_of_turn hTurn) k).trans hFollow, hEnd⟩
      · rw [hTurn] at hRun
        exact ⟨0, c, rfl, hTurn.trans (congrArg _ (Option.some.inj hRun))⟩
  · rintro ⟨k, z, hFollow, hEnd⟩
    induction k generalizing c with
    | zero =>
      cases hFollow
      exact ⟨1, by rw [readFrom, hEnd]⟩
    | succ k ih =>
      obtain ⟨c', hNext, hRest⟩ := Option.bind_eq_some_iff.1 hFollow
      obtain ⟨n, hRun⟩ := ih hRest
      exact ⟨n + 1, by rw [readFrom, turn_of_searchNext hNext]; exact hRun⟩

/-- Up to the first entry that has the attribute the search is on the chain of references. -/
theorem follow_reference {k : Nat} {z : Cursor}
    (h : follow (searchNext d attr) k c = some z) {j : Nat} (hj : j ≤ k) :
    follow (reference d attr) j c = follow (searchNext d attr) j c := by
  induction j generalizing c k with
  | zero => rfl
  | succ j ih =>
    obtain ⟨k, rfl⟩ := Nat.exists_eq_succ_of_ne_zero (Nat.ne_zero_of_lt hj)
    obtain ⟨c', hNext, hRest⟩ := Option.bind_eq_some_iff.1 h
    rw [follow_of_some (reference_of_searchNext hNext).2, follow_of_some hNext]
    exact ih hRest (Nat.le_of_succ_le_succ hj)

/-! ## The entries of a chain -/

instance : Finite Word := .of_injective BitVec.toFin fun _ _ => BitVec.eq_of_toFin_eq

variable (d) in
/-- The units of the objects in some sections, and those of the DWZ file. -/
def unitsOf (secs : Set Nat) : Set CompUnit :=
  {u | ∃ w o, d.findAltObjectInfo w = .ok o ∧ o.unit = u} ∪
    {u | ∃ sec ∈ secs, ∃ w o loaded, d.findObject sec w = .ok (.object o loaded) ∧ o.unit = u}

/-- The object that has been found. -/
def foundObject : Except Failure Found → Option ObjectInfo
  | .ok (.object o _) => some o
  | .ok .missing | .error _ => none

theorem finite_unitsOf {secs : Set Nat} (h : secs.Finite) : (unitsOf d secs).Finite := by
  have hUnits {β : Type} [Finite β] (f : β → Option ObjectInfo) :
      {u | ∃ b o, f b = some o ∧ o.unit = u}.Finite := by
    refine ((Set.finite_range f).image fun o => o.map ObjectInfo.unit).preimage
      (f := some) (Option.some_injective _).injOn |>.subset ?_
    rintro u ⟨b, o, hb, rfl⟩
    exact ⟨f b, ⟨b, rfl⟩, by rw [hb]; rfl⟩
  refine .union ((hUnits fun w => (d.findAltObjectInfo w).toOption).subset ?_) ?_
  · rintro u ⟨w, o, hw, rfl⟩
    exact ⟨w, o, by rw [hw]; rfl, rfl⟩
  · refine (h.biUnion fun sec _ => hUnits fun w => foundObject (d.findObject sec w)).subset ?_
    rintro u ⟨sec, hSec, w, o, loaded, hw, rfl⟩
    exact Set.mem_biUnion hSec ⟨w, o, by rw [hw, foundObject], rfl⟩

/-- An object is one of the DWZ file or of the section of the entry. -/
theorem unit_of_objectOf {o : ObjectInfo} (h : objectOf d sec x = some o) :
    (∃ w o', d.findAltObjectInfo w = .ok o' ∧ o'.unit = o.unit) ∨
      o.unit.sec = sec ∧
        ∃ w o' loaded, d.findObject sec w = .ok (.object o' loaded) ∧ o'.unit = o.unit := by
  unfold objectOf at h
  split at h
  · cases hAlt : d.findAltObjectInfo x.data.data with
    | error e =>
      rw [hAlt] at h
      cases h
    | ok o' =>
      rw [hAlt] at h
      cases h
      exact .inl ⟨_, o, hAlt, rfl⟩
  · split at h
    · split at h
      · rename_i o' hFound
        split at h
        · rename_i hSec
          cases h
          exact .inr ⟨hSec, _, o, false, hFound, rfl⟩
        · cases h
      · cases h
    · cases h

/-- An entry refers to one of its own unit, of an object in its section, or of the DWZ file. -/
theorem unit_of_reference (h : reference d attr c = some c') :
    c'.unit = c.unit ∨ (∃ w o, d.findAltObjectInfo w = .ok o ∧ o.unit = c'.unit) ∨
      c'.unit.sec = c.unit.sec ∧
        ∃ w o loaded, d.findObject c.unit.sec w = .ok (.object o loaded) ∧ o.unit = c'.unit := by
  unfold reference at h
  rcases hRead : readProperties d attr c with e | ⟨p, s⟩
  · rw [hRead] at h
    cases h
  · rw [hRead] at h
    obtain ⟨k, -, h⟩ := Option.bind_eq_some_iff.1 h
    cases k with
    | specification | abstractOrigin =>
      obtain ⟨o, hObject, rfl⟩ := Option.map_eq_some_iff.1 h
      exact .inr (unit_of_objectOf hObject)
    | extension =>
      simp only [destination] at h
      split at h
      · cases h
        exact .inl rfl
      · cases h

variable (d attr) in
/-- A chain comes to finitely many entries only: offsets are words, and so are the numbers of
the objects. -/
theorem reach_finite (c : Cursor) :
    {z | ∃ k, follow (searchNext d attr) k c = some z}.Finite := by
  let secs : Set Nat := insert c.unit.sec (CompUnit.sec '' unitsOf d ∅)
  let units : Set CompUnit := insert c.unit (unitsOf d secs)
  have hSecs : secs.Finite := ((finite_unitsOf Set.finite_empty).image _).insert _
  have hUnits : units.Finite := (finite_unitsOf hSecs).insert _
  have hStep {k : Nat} {z : Cursor} (h : follow (searchNext d attr) k c = some z) :
      z.unit ∈ units ∧ z.unit.sec ∈ secs := by
    induction k generalizing z with
    | zero =>
      cases h
      exact ⟨Set.mem_insert _ _, Set.mem_insert _ _⟩
    | succ k ih =>
      rw [follow_succ] at h
      obtain ⟨y, hy, hNext⟩ := Option.bind_eq_some_iff.1 h
      obtain ⟨hUnit, hSec⟩ := ih hy
      rcases unit_of_reference
        (reference_of_searchNext hNext).2 with hSame | hAlt | ⟨hSame, hObject⟩
      · rw [hSame]
        exact ⟨hUnit, hSec⟩
      · exact ⟨.inr (.inl hAlt), .inr ⟨_, .inl hAlt, rfl⟩⟩
      · exact ⟨.inr (.inr ⟨_, hSec, hObject⟩), hSame ▸ hSec⟩
  refine ((hUnits.prod (Set.toFinite (Set.univ : Set (Word × Word × Word)))).image fun x =>
    (⟨x.1, x.2.1, x.2.2.1, x.2.2.2⟩ : Cursor)).subset ?_
  rintro z ⟨k, hk⟩
  exact ⟨(z.unit, z.offset, z.unitSize, z.symValue), ⟨(hStep hk).1, trivial⟩, rfl⟩

end

/-- A unit with one entry, which is its own specification. -/
def selfUnit : CompUnit := ⟨⟨2, false, 8, 0, [none, some ⟨0x2e, false, [(0x47, 0x13)]⟩]⟩, 5, 0⟩

def selfInfo : DebugInfo where
  sections _ := ⟨some ".debug_info", 0x1000, [1, 0, 0, 0, 0], false, true, .ok ⟨⟩, none, by decide⟩
  strings _ _ := .error eof
  findObject _ id := .ok (if id = 0x1000 then .object ⟨0x1000, selfUnit⟩ false else .missing)
  findAltObjectInfo _ := .error eof

theorem selfInfo_turn :
    turn selfInfo 0x03 (cursorOf selfInfo ⟨0x1000, selfUnit⟩ 0) =
      .inl (cursorOf selfInfo ⟨0x1000, selfUnit⟩ 0) := rfl

end TcfAgent.AttributeLookup
