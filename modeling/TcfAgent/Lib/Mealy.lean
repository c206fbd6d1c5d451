import Mathlib.Data.List.Basic

/-!
# Transducers

A deterministic machine that reads a list of letters and writes some outputs for
each. Reading a concatenation is reading the first part and then, from the state
reached, the second (`outs_append`, `final_append`).
-/

namespace TcfAgent.Lib

/-- `next` is the transition, `out` what the transition writes. -/
structure Mealy (σ α ω : Type*) where
  next : σ → α → σ
  out  : σ → α → List ω

namespace Mealy

variable {σ α ω : Type*} (m : Mealy σ α ω)

/-- The state after reading a list. -/
def final : σ → List α → σ
  | s, [] => s
  | s, x :: xs => final (m.next s x) xs

/-- What is written while reading a list. -/
def outs : σ → List α → List ω
  | _, [] => []
  | s, x :: xs => m.out s x ++ outs (m.next s x) xs

@[simp] theorem final_nil (s : σ) : m.final s [] = s := rfl

@[simp] theorem final_cons (s : σ) (x : α) (xs : List α) :
    m.final s (x :: xs) = m.final (m.next s x) xs := rfl

@[simp] theorem outs_nil (s : σ) : m.outs s [] = [] := rfl

@[simp] theorem outs_cons (s : σ) (x : α) (xs : List α) :
    m.outs s (x :: xs) = m.out s x ++ m.outs (m.next s x) xs := rfl

theorem final_append (s : σ) (xs ys : List α) :
    m.final s (xs ++ ys) = m.final (m.final s xs) ys := by
  induction xs generalizing s with
  | nil => rfl
  | cons x xs ih => exact ih (m.next s x)

theorem outs_append (s : σ) (xs ys : List α) :
    m.outs s (xs ++ ys) = m.outs s xs ++ m.outs (m.final s xs) ys := by
  induction xs generalizing s with
  | nil => rfl
  | cons x xs ih =>
    rw [List.cons_append, outs_cons, outs_cons, ih, List.append_assoc]
    rfl

/-- What a part of the input writes is a prefix of what the whole input writes. -/
theorem outs_prefix (s : σ) {xs ys : List α} (h : xs <+: ys) : m.outs s xs <+: m.outs s ys := by
  obtain ⟨zs, rfl⟩ := h
  exact ⟨_, (outs_append m s xs zs).symm⟩

end Mealy

end TcfAgent.Lib
