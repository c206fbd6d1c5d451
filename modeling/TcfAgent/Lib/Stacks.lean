import Mathlib.Tactic

/-!
# Stacks

A stack is kept in an array, of which the entries below a position are in use. A postfix machine
runs operations, each of which takes so many values from the top of its stack and puts others
there.

Main results:

* `fromTop_set`, `fromTop_set_succ`, `fromTop_pred` — what a write does to the stack.
-/

namespace TcfAgent.Lib

/-! ## In an array -/

/-- The entries below `pos`, the topmost first. -/
def fromTop {α : Type} (pos : Nat) (l : List α) : List α := (l.take pos).reverse

section

variable {α : Type} {l : List α} {pos k : Nat}

theorem length_fromTop (h : pos ≤ l.length) : (fromTop pos l).length = pos := by
  rw [fromTop, List.length_reverse, List.length_take, Nat.min_eq_left h]

theorem getElem?_fromTop (h : pos ≤ l.length) (hk : k < pos) :
    (fromTop pos l)[k]? = l[pos - (k + 1)]? := by
  have hLength : (l.take pos).length = pos := by rw [List.length_take, Nat.min_eq_left h]
  rw [fromTop, List.getElem?_reverse (by omega), hLength, List.getElem?_take_of_lt (by omega)]
  congr 1
  omega

theorem fromTop_set (h : pos ≤ l.length) (hk : k < pos) (a : α) :
    fromTop pos (l.set (pos - (k + 1)) a) = (fromTop pos l).set k a := by
  refine List.ext_getElem? fun j => ?_
  by_cases hj : j < pos
  · rw [getElem?_fromTop (by rwa [List.length_set]) hj, List.getElem?_set, List.getElem?_set,
      getElem?_fromTop h hj, length_fromTop h]
    by_cases hEq : k = j
    · subst hEq
      simp [hk]
      omega
    · rw [if_neg (by omega), if_neg hEq]
  · rw [List.getElem?_eq_none, List.getElem?_eq_none]
    · rw [List.length_set, length_fromTop h]
      omega
    · rw [length_fromTop (by rwa [List.length_set])]
      omega

theorem fromTop_set_succ (h : pos < l.length) (a : α) :
    fromTop (pos + 1) (l.set pos a) = a :: fromTop pos l := by
  rw [fromTop, fromTop, List.take_succ_eq_append_getElem (by rwa [List.length_set]),
    List.take_set_of_le (Nat.le_refl _), List.reverse_append]
  simp

theorem fromTop_pred (h : pos ≤ l.length) : fromTop (pos - 1) l = (fromTop pos l).tail := by
  cases pos with
  | zero => simp [fromTop]
  | succ n =>
    rw [Nat.add_sub_cancel, fromTop, fromTop, List.take_succ_eq_append_getElem (by omega),
      List.reverse_append]
    rfl

theorem fromTop_append (h : pos ≤ l.length) (l' : List α) :
    fromTop pos (l ++ l') = fromTop pos l := by
  rw [fromTop, fromTop, List.take_append_of_le_length h]

end

/-! ## Postfix machines -/

/-- An operation on `arity` values, the topmost first, and a state: the values it puts in their
place, and the state after it. -/
structure PostfixOp (α σ ε : Type) where
  arity : Nat
  run   : List α → σ → Except ε (List α × σ)

section

variable {α σ ε : Type}

/-- One operation; `underflow` is raised when there are not enough values. -/
def postfixStep (underflow : ε) (op : PostfixOp α σ ε) (s : List α × σ) :
    Except ε (List α × σ) :=
  if s.1.length < op.arity then .error underflow
  else (op.run (s.1.take op.arity) s.2).map fun r => (r.1 ++ s.1.drop op.arity, r.2)

theorem postfixStep_of_le {underflow : ε} {op : PostfixOp α σ ε} {s : List α × σ}
    (h : op.arity ≤ s.1.length) : postfixStep underflow op s =
      (op.run (s.1.take op.arity) s.2).map fun r => (r.1 ++ s.1.drop op.arity, r.2) :=
  if_neg (Nat.not_lt.2 h)

def postfixRun (underflow : ε) : List (PostfixOp α σ ε) → List α × σ → Except ε (List α × σ)
  | [], s => .ok s
  | op :: ops, s => (postfixStep underflow op s).bind (postfixRun underflow ops)

end

end TcfAgent.Lib
