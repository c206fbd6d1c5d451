import Mathlib.Tactic

/-!
# Commands that wait

An attempt at a command looks at the world. It comes to an end, or it has to wait for something to
be done to the world; then the command is tried again from the start.

Main results:

* `retry_eq` — the attempt that comes to an end is the one in a world where everything has been
  done.
-/

namespace TcfAgent.Lib

variable {ω τ β : Type} {attempt : ω → β} {waits : β → Option τ} {serve : τ → ω → ω}

/-- One attempt after the other, up to the first one that does not wait. -/
def retry (attempt : ω → β) (waits : β → Option τ) (serve : τ → ω → ω) : (fuel : Nat) → ω → β
  | 0, w => attempt w
  | fuel + 1, w =>
    match waits (attempt w) with
    | none => attempt w
    | some t => retry attempt waits serve fuel (serve t w)

theorem retry_of_none {fuel : Nat} {w : ω} (h : waits (attempt w) = none) :
    retry attempt waits serve fuel w = attempt w := by
  cases fuel with
  | zero => rfl
  | succ fuel => rw [retry, h]

/-- What is waited for has not been done, and is done then; `settled` is the world where all of it
has been done, which makes no difference to an attempt that does not wait. `inv` is what is known of
the world. -/
theorem retry_eq (inv : ω → Prop) (settled : ω → ω) (toDo : ω → Nat)
    (hServe : ∀ w t, inv w → waits (attempt w) = some t →
      inv (serve t w) ∧ settled (serve t w) = settled w ∧ toDo (serve t w) < toDo w)
    (hEnd : ∀ w, inv w → waits (attempt w) = none → attempt (settled w) = attempt w)
    {fuel : Nat} {w : ω} (hInv : inv w) (hFuel : toDo w ≤ fuel) :
    retry attempt waits serve fuel w = attempt (settled w) := by
  induction fuel generalizing w with
  | zero =>
    have hNone : waits (attempt w) = none := by
      rw [Option.eq_none_iff_forall_ne_some]
      intro t hWait
      have hLess := (hServe w t hInv hWait).2.2
      omega
    rw [retry, hEnd w hInv hNone]
  | succ fuel ih =>
    rcases hWait : waits (attempt w) with _ | t
    · rw [retry_of_none hWait, hEnd w hInv hWait]
    · obtain ⟨hNext, hSettled, hLess⟩ := hServe w t hInv hWait
      rw [retry, hWait]
      exact (ih hNext (by omega)).trans (congrArg attempt hSettled)

end TcfAgent.Lib
