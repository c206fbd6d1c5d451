import Mathlib.Data.Nat.Basic
import Mathlib.Tactic

/-!
# Binary search

The search in a half-open window: `probe k` says where to go from the index `k`. Nothing is assumed
of the probes. `way` are the indices that lie on the way to an index; the search comes to it exactly
when every probe on the way points there.
-/

namespace TcfAgent.Lib

/-- The window is from `l` up to `h`; `.lt` is to the left of an index, `.gt` to its right. -/
def bsearch (probe : Nat → Ordering) : (fuel l h : Nat) → Option Nat
  | 0, _, _ => none
  | fuel + 1, l, h =>
    if l < h then
      let k := (l + h) / 2
      match probe k with
      | .lt => bsearch probe fuel l k
      | .gt => bsearch probe fuel (k + 1) h
      | .eq => some k
    else none

/-- The middle indices of the windows around `i`, down to `i` itself. -/
def way (i : Nat) : (fuel l h : Nat) → List Nat
  | 0, _, _ => []
  | fuel + 1, l, h =>
    if l < h then
      let k := (l + h) / 2
      k :: if i < k then way i fuel l k else if k < i then way i fuel (k + 1) h else []
    else []

section

variable {probe : Nat → Ordering} {fuel l h i : Nat}

theorem bsearch_sound (hFound : bsearch probe fuel l h = some i) :
    l ≤ i ∧ i < h ∧ probe i = .eq := by
  induction fuel generalizing l h with
  | zero => cases hFound
  | succ fuel ih =>
    rw [bsearch] at hFound
    split at hFound
    · rename_i hLt
      dsimp only at hFound
      split at hFound
      · obtain ⟨hLow, hHigh, hProbe⟩ := ih hFound
        exact ⟨hLow, by omega, hProbe⟩
      · obtain ⟨hLow, hHigh, hProbe⟩ := ih hFound
        exact ⟨by omega, hHigh, hProbe⟩
      · rename_i hProbe
        cases hFound
        exact ⟨by omega, by omega, hProbe⟩
    · cases hFound

/-- The search comes to an index exactly when the probes on the way to it point there. -/
theorem bsearch_eq_some (hFuel : h - l ≤ fuel) (hLow : l ≤ i) (hHigh : i < h)
    (hProbe : probe i = .eq) :
    bsearch probe fuel l h = some i ↔
      ∀ k ∈ way i fuel l h, (k < i → probe k = .gt) ∧ (i < k → probe k = .lt) := by
  induction fuel generalizing l h with
  | zero => omega
  | succ fuel ih =>
    have hLt : l < h := by omega
    rw [bsearch, way, if_pos hLt, if_pos hLt]
    dsimp only
    -- the place is in front of the middle, in it, or behind it
    rcases Nat.lt_trichotomy i ((l + h) / 2) with hLeft | rfl | hRight
    · rw [if_pos hLeft, List.forall_mem_cons]
      cases hMiddle : probe ((l + h) / 2) with
      | lt =>
        refine (ih (by omega) hLow hLeft).trans ?_
        constructor
        · intro hWay
          exact ⟨⟨fun hNot => by omega, fun _ => rfl⟩, hWay⟩
        · rintro ⟨-, hWay⟩
          exact hWay
      | eq =>
        constructor
        · intro hFound
          cases hFound
          omega
        · rintro ⟨⟨-, hPoints⟩, -⟩
          cases hPoints hLeft
      | gt =>
        constructor
        · intro hFound
          have hAfter := (bsearch_sound hFound).1
          omega
        · rintro ⟨⟨-, hPoints⟩, -⟩
          cases hPoints hLeft
    · rw [hProbe, if_neg (Nat.lt_irrefl _), if_neg (Nat.lt_irrefl _)]
      simp
    · rw [if_neg (by omega), if_pos hRight, List.forall_mem_cons]
      cases hMiddle : probe ((l + h) / 2) with
      | lt =>
        constructor
        · intro hFound
          have hBefore := (bsearch_sound hFound).2.1
          omega
        · rintro ⟨⟨hPoints, -⟩, -⟩
          cases hPoints hRight
      | eq =>
        constructor
        · intro hFound
          cases hFound
          omega
        · rintro ⟨⟨hPoints, -⟩, -⟩
          cases hPoints hRight
      | gt =>
        refine (ih (by omega) hRight hHigh).trans ?_
        constructor
        · intro hWay
          exact ⟨⟨fun _ => rfl, fun hNot => by omega⟩, hWay⟩
        · rintro ⟨-, hWay⟩
          exact hWay

theorem mem_way {k : Nat} (hk : k ∈ way i fuel l h) : l ≤ k ∧ k < h := by
  induction fuel generalizing l h with
  | zero => cases hk
  | succ fuel ih =>
    rw [way] at hk
    split at hk
    · rcases List.mem_cons.1 hk with rfl | hk
      · omega
      · split at hk
        · have hIn := ih hk
          omega
        · split at hk
          · have hIn := ih hk
            omega
          · cases hk
    · cases hk

end

end TcfAgent.Lib
