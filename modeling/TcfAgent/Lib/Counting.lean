import Mathlib.Data.List.Nodup
import Mathlib.Logic.Function.Basic

/-!
# Counting flags

A component keeps a counter beside a flag that every member of a list has: the counter is
meant to be the number of members whose flag is set. When the flags are those of a function
`f`, and one value of the function is replaced, the number changes by that one flag
(`countP_update`), and by nothing when the member is not in the list.
-/

namespace TcfAgent.Lib

variable {α β : Type*} {l : List α}

/-- No flag is set when the counter is zero. -/
theorem not_of_countP_eq_zero {p : α → Bool} (h : l.countP p = 0) {a : α}
    (ha : a ∈ l) : p a = false := by
  rw [List.countP_eq_zero] at h
  exact Bool.eq_false_iff.2 (h a ha)

variable [DecidableEq α]

theorem countP_update_of_notMem (p : β → Bool) (f : α → β) {a : α} (b : β)
    (ha : a ∉ l) :
    l.countP (fun x => p (Function.update f a b x)) = l.countP fun x => p (f x) := by
  refine List.countP_congr fun x hx => ?_
  rw [Function.update_of_ne (ne_of_mem_of_not_mem hx ha)]

/-- The flag of one member is replaced. -/
theorem countP_update (p : β → Bool) (f : α → β) {a : α} (b : β) (hl : l.Nodup)
    (ha : a ∈ l) :
    l.countP (fun x => p (Function.update f a b x)) + (if p (f a) then 1 else 0) =
      l.countP (fun x => p (f x)) + if p b then 1 else 0 := by
  induction l with
  | nil => cases ha
  | cons x l ih =>
    obtain ⟨hNot, hl'⟩ := List.nodup_cons.1 hl
    rw [List.countP_cons, List.countP_cons]
    by_cases hx : x = a
    · subst hx
      rw [countP_update_of_notMem p f b hNot, Function.update_self]
      omega
    · have hMem : a ∈ l := (List.mem_cons.1 ha).resolve_left (Ne.symm hx)
      have hRest := ih hl' hMem
      rw [Function.update_of_ne hx]
      omega

end TcfAgent.Lib
