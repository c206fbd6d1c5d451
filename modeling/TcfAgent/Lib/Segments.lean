import Mathlib.Data.List.Basic

/-!
# Splitting a list into segments

A list of patterns matches a list when the list splits into consecutive segments, one for each
pattern: any segment at all, or a segment of one element with a property.

Main results:

* `splits_append`  — patterns in a row match segments in a row;
* `splits_reverse` — a list is split from either end;
* `splits_anys`    — patterns that take any segment take all of the list.
-/

namespace TcfAgent.Lib

/-- A segment of any length, or of one element. -/
inductive Pattern (α : Type*) where
  | any
  | one (p : α → Prop)

namespace Pattern

variable {α : Type*}

def Matches : Pattern α → List α → Prop
  | .any, _ => True
  | .one p, s => ∃ x, s = [x] ∧ p x

/-- The list splits into segments that match the patterns in order. -/
def Splits : List (Pattern α) → List α → Prop
  | [], l => l = []
  | p :: ps, l => ∃ s t, l = s ++ t ∧ p.Matches s ∧ Splits ps t

variable {ps qs : List (Pattern α)} {l : List α} {p : α → Prop}

theorem splits_any_cons : Splits (.any :: ps) l ↔ ∃ s t, l = s ++ t ∧ Splits ps t := by
  simp [Splits, Matches]

theorem splits_one_cons : Splits (.one p :: ps) l ↔ ∃ x t, l = x :: t ∧ p x ∧ Splits ps t := by
  constructor
  · rintro ⟨_, t, rfl, ⟨x, rfl, hx⟩, ht⟩
    exact ⟨x, t, rfl, hx, ht⟩
  · rintro ⟨x, t, rfl, hx, ht⟩
    exact ⟨[x], t, rfl, ⟨x, rfl, hx⟩, ht⟩

/-- Patterns in a row match segments in a row. -/
theorem splits_append :
    Splits (ps ++ qs) l ↔ ∃ s t, l = s ++ t ∧ Splits ps s ∧ Splits qs t := by
  induction ps generalizing l with
  | nil =>
    constructor
    · intro h
      exact ⟨[], l, rfl, rfl, h⟩
    · rintro ⟨s, t, rfl, rfl, h⟩
      exact h
  | cons p ps ih =>
    constructor
    · rintro ⟨s, t, rfl, hs, ht⟩
      obtain ⟨u, v, rfl, hu, hv⟩ := ih.1 ht
      exact ⟨s ++ u, v, (List.append_assoc s u v).symm, ⟨s, u, rfl, hs, hu⟩, hv⟩
    · rintro ⟨_, v, rfl, ⟨s, u, rfl, hs, hu⟩, hv⟩
      exact ⟨s, u ++ v, List.append_assoc s u v, hs, ih.2 ⟨u, v, rfl, hu, hv⟩⟩

theorem splits_singleton {p : Pattern α} : Splits [p] l ↔ p.Matches l := by
  constructor
  · rintro ⟨s, t, rfl, hs, rfl⟩
    rwa [List.append_nil]
  · intro h
    exact ⟨l, [], (List.append_nil l).symm, h, rfl⟩

theorem matches_reverse {p : Pattern α} : p.Matches l.reverse ↔ p.Matches l := by
  cases p with
  | any => exact Iff.rfl
  | one p => simp [Matches]

/-- A list is split from either end. -/
theorem splits_reverse : Splits ps.reverse l.reverse ↔ Splits ps l := by
  induction ps generalizing l with
  | nil => simp [Splits]
  | cons p ps ih =>
    rw [List.reverse_cons, splits_append]
    constructor
    · rintro ⟨s, t, hl, hs, ht⟩
      have hl' : l = t.reverse ++ s.reverse := by
        rw [← List.reverse_append, ← hl, List.reverse_reverse]
      rw [← List.reverse_reverse s, ih] at hs
      exact ⟨_, _, hl', matches_reverse.2 (splits_singleton.1 ht), hs⟩
    · rintro ⟨s, t, rfl, hs, ht⟩
      exact ⟨_, _, List.reverse_append, ih.2 ht, splits_singleton.2 (matches_reverse.2 hs)⟩

/-- Patterns that take any segment take all of the list. -/
theorem splits_anys (hAny : ∀ p ∈ ps, p = .any) (hNe : ps ≠ []) : Splits ps l := by
  induction ps with
  | nil => exact absurd rfl hNe
  | cons p ps ih =>
    obtain rfl := hAny p List.mem_cons_self
    by_cases hNil : ps = []
    · subst hNil
      exact splits_singleton.2 trivial
    · have hRest := ih (fun q hq => hAny q (List.mem_cons_of_mem _ hq)) hNil
      exact ⟨[], l, rfl, trivial, hRest⟩

/-- A pattern that takes one element leaves something to take. -/
theorem Splits.ne_nil (h : Splits ps l) (hOne : .one p ∈ ps) : l ≠ [] := by
  obtain ⟨front, back, rfl⟩ := List.append_of_mem hOne
  obtain ⟨s, t, rfl, -, ht⟩ := splits_append.1 h
  obtain ⟨x, u, rfl, -, -⟩ := splits_one_cons.1 ht
  exact List.append_ne_nil_of_right_ne_nil s (List.cons_ne_nil x u)

end Pattern

end TcfAgent.Lib
