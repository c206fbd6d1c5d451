import Mathlib.Data.List.Basic
import Mathlib.Tactic

/-!
# The comparison of error reports

`compare_error_reports` of `framework/errors.c` walks three structures of two reports side by side:
an optional string, an array of optional strings, and a linked list of names and values. Where two
pointers are the same, what they point to is not looked at.

A linked list is the list of the addresses of its items. The walk over the properties starts both
times at the first report.

Main results:

* `textsDiffer_eq` — the shortcut for identical pointers does not change the comparison of two
  strings;
* `compare_iff` — what the comparison compares: all but the properties;
* `compared_iff` — the pairs of reports for which it is equality.
-/

namespace TcfAgent.ErrorComparison

/-! ## Reports in memory -/

abbrev Addr := Nat

/-- A string without the zero at its end. -/
abbrev Text := List UInt8

/-- `ErrorReportItem` -/
structure ErrorReportItem where
  name  : Addr
  value : Addr
  next  : Option Addr
deriving DecidableEq, Repr

/-- What strings and items are at which addresses. -/
structure Heap where
  strings : Addr → Text
  items   : Addr → ErrorReportItem

/-- Every item refers to the one behind it. -/
def Heap.Linked (h : Heap) : List Addr → Prop
  | [] => True
  | p :: ps => (h.items p).next = ps.head? ∧ h.Linked ps

/-- `ErrorReport`: what of it is compared. The array has `param_cnt` entries. -/
structure ErrorReport (h : Heap) where
  code   : Int
  format : Option Addr
  params : List (Option Addr)
  props  : List Addr
  linked : h.Linked props

/-- A heap with error reports. -/
structure Memory extends Heap where
  reports : Addr → ErrorReport toHeap

section

variable (h : Heap)

/-! ## The comparison -/

/-- `px != py`, and one is `NULL` or `strcmp` finds a difference. -/
def textsDiffer (px py : Option Addr) : Bool :=
  if px = py then false
  else match px, py with
    | some p, some q => h.strings p != h.strings q
    | _, _ => true

/-- The loop over the parameters. -/
def compareParams : List (Option Addr) → List (Option Addr) → Bool
  | px :: xs, py :: ys => if textsDiffer h px py then false else compareParams xs ys
  | _, _ => true

/-- The loop over the properties, from two items on. -/
def compareProps : List Addr → List Addr → Bool
  | [], [] => true
  | px :: xs, py :: ys =>
    if px = py then compareProps xs ys
    else if h.strings (h.items px).name ≠ h.strings (h.items py).name then false
    else if h.strings (h.items px).value ≠ h.strings (h.items py).value then false
    else compareProps xs ys
  | _, _ => false

end

/-- `compare_error_reports` -/
def compareErrorReports (mem : Memory) (a b : Option Addr) : Bool :=
  if a = b then true
  else match a, b with
    | some a, some b =>
      let x := mem.reports a
      let y := mem.reports b
      if x.code ≠ y.code then false
      else if textsDiffer mem.toHeap x.format y.format then false
      else if x.params.length ≠ y.params.length then false
      else if compareParams mem.toHeap x.params y.params = false then false
      -- Both pointers of the walk are set to `x->props`.
      else if x.props.head? ≠ y.props.head? then compareProps mem.toHeap x.props x.props
      else true
    | _, _ => false

/-! ## What is compared -/

section

variable {h : Heap}

/-- What an optional string is. -/
def Heap.text (h : Heap) (p : Option Addr) : Option Text := p.map h.strings

/-- The name and the value of an item. -/
def Heap.prop (h : Heap) (p : Addr) : Text × Text :=
  (h.strings (h.items p).name, h.strings (h.items p).value)

/-- The reports have the same code, format and parameters. -/
structure Alike (x y : ErrorReport h) : Prop where
  code   : x.code = y.code
  format : h.text x.format = h.text y.format
  params : x.params.map h.text = y.params.map h.text

/-- The names and values in order. -/
def ErrorReport.properties (x : ErrorReport h) : List (Text × Text) := x.props.map h.prop

/-- All that a report says is the same. -/
structure Same (x y : ErrorReport h) : Prop extends Alike x y where
  props : x.properties = y.properties

theorem textsDiffer_eq (px py : Option Addr) :
    textsDiffer h px py = false ↔ h.text px = h.text py := by
  unfold textsDiffer Heap.text
  by_cases hSame : px = py
  · simp [hSame]
  · rcases px with _ | p <;> rcases py with _ | q <;> simp_all

theorem compareParams_iff {xs ys : List (Option Addr)} (hLength : xs.length = ys.length) :
    compareParams h xs ys = true ↔ xs.map h.text = ys.map h.text := by
  induction xs generalizing ys with
  | nil =>
    obtain rfl := List.length_eq_zero_iff.mp hLength.symm
    simp [compareParams]
  | cons px xs ih =>
    obtain ⟨py, ys, rfl⟩ := List.exists_cons_of_length_eq_add_one hLength.symm
    have hRest := ih (Nat.succ.inj hLength)
    have hText := textsDiffer_eq (h := h) px py
    rw [compareParams, List.map_cons, List.map_cons, List.cons.injEq]
    by_cases hDiffer : textsDiffer h px py = true
    · have hNot : ¬ h.text px = h.text py := by rw [← hText]; simp [hDiffer]
      simp [hDiffer, hNot]
    · have hFalse : textsDiffer h px py = false := by simpa using hDiffer
      rw [if_neg hDiffer, hRest, and_iff_right (hText.mp hFalse)]

theorem compareProps_iff (xs ys : List Addr) :
    compareProps h xs ys = true ↔ xs.map h.prop = ys.map h.prop := by
  induction xs generalizing ys with
  | nil => cases ys <;> simp [compareProps]
  | cons px xs ih =>
    rcases ys with _ | ⟨py, ys⟩
    · simp [compareProps]
    · rw [compareProps, List.map_cons, List.map_cons, List.cons.injEq, ← ih]
      by_cases hSame : px = py
      · simp [hSame]
      · rw [if_neg hSame, Heap.prop, Heap.prop, Prod.mk.injEq]
        split_ifs with hName hValue
        · simp [hName]
        · simp [hValue]
        · simp [not_not.mp hName, not_not.mp hValue]

end

variable (mem : Memory) (a b : Addr)

theorem compare_iff :
    compareErrorReports mem (some a) (some b) = true ↔ Alike (mem.reports a) (mem.reports b) := by
  unfold compareErrorReports
  by_cases hSame : a = b
  · subst hSame
    simp only [if_true]
    exact ⟨fun _ => ⟨rfl, rfl, rfl⟩, fun _ => trivial⟩
  · rw [if_neg (by simpa using hSame)]
    have hWalk : compareProps mem.toHeap (mem.reports a).props (mem.reports a).props = true :=
      (compareProps_iff _ _).mpr rfl
    have hFormat := textsDiffer_eq (h := mem.toHeap) (mem.reports a).format (mem.reports b).format
    constructor
    · intro hTrue
      simp only at hTrue
      split_ifs at hTrue with hCode hForm hLength hParams hHead <;>
        exact ⟨not_not.mp hCode, hFormat.mp (by simpa using hForm),
          (compareParams_iff (not_not.mp hLength)).mp (by simpa using hParams)⟩
    · intro hAlike
      have hLength : (mem.reports a).params.length = (mem.reports b).params.length := by
        simpa using congrArg List.length hAlike.params
      have hParams := (compareParams_iff hLength).mpr hAlike.params
      simp [hAlike.code, hFormat.mpr hAlike.format, hLength, hParams, hWalk]

/-- The comparison is equality for the reports that do not differ in their properties alone. -/
theorem compared_iff :
    (compareErrorReports mem (some a) (some b) = true ↔ Same (mem.reports a) (mem.reports b)) ↔
      (Alike (mem.reports a) (mem.reports b) →
        (mem.reports a).properties = (mem.reports b).properties) := by
  rw [compare_iff]
  constructor
  · intro hIff hAlike
    exact (hIff.mp hAlike).props
  · intro hProps
    exact ⟨fun hAlike => ⟨hAlike, hProps hAlike⟩, fun hSame => hSame.toAlike⟩

/-- Two reports with one property each. -/
def twoReports : Memory where
  strings p := [UInt8.ofNat p]
  items p := ⟨p, p, none⟩
  reports p := ⟨0, none, [], [p], rfl, trivial⟩

/-- The reports have different properties, and the comparison says that they are equal. -/
theorem properties_not_compared :
    compareErrorReports twoReports (some 1) (some 2) = true ∧
      ¬ Same (twoReports.reports 1) (twoReports.reports 2) := by
  constructor
  · decide
  · intro hSame
    exact absurd hSame.props (by decide)

end TcfAgent.ErrorComparison
