import Mathlib.Data.Finset.Card
import Mathlib.Data.Set.Finite.Basic

/-!
# Chains of references

Entries of a table that refer to other entries make a partial function, `next`. Following it
from an entry may never end; `Finishes` says that it does, `Avoids` that it never comes to a
certain entry.

Results:

* `finishes_update` — when one entry is replaced, and the chain from its new reference does not
  come back to it, every chain that had an end still has one;
* `finishes_iff`    — in a finite table a chain has an end if and only if no entry comes twice;
* `finishes_within` — a chain with an end takes no more steps than there are entries.
-/

namespace TcfAgent.Lib

variable {α : Type*}

/-- Where the chain from an entry is after some steps. -/
def follow (next : α → Option α) : Nat → α → Option α
  | 0, a => some a
  | n + 1, a => (next a).bind (follow next n)

/-- The chain has an end. -/
inductive Finishes (next : α → Option α) : α → Prop
  | intro {a : α} (h : ∀ b, next a = some b → Finishes next b) : Finishes next a

/-- The chain does not come to `k`. -/
def Avoids (next : α → Option α) (k a : α) : Prop := ∀ n, follow next n a ≠ some k

/-- No entry comes twice. -/
def Once (next : α → Option α) (a : α) : Prop :=
  ∀ i j b, follow next i a = some b → follow next j a = some b → i = j

variable {next next' : α → Option α} {a b e k : α}

theorem follow_succ (next : α → Option α) (n : Nat) (a : α) :
    follow next (n + 1) a = (follow next n a).bind next := by
  induction n generalizing a with
  | zero =>
    show (next a).bind some = next a
    simp
  | succ n ih =>
    show (next a).bind (follow next (n + 1)) = ((next a).bind (follow next n)).bind next
    rw [Option.bind_assoc]
    exact congrArg _ (funext ih)

theorem follow_of_some (h : next a = some b) (n : Nat) :
    follow next (n + 1) a = follow next n b := by
  show (next a).bind _ = _
  rw [h]
  rfl

theorem finishes_of_none (h : next a = none) : Finishes next a :=
  .intro fun b hb => by rw [h] at hb; cases hb

theorem Avoids.ne (h : Avoids next k a) : a ≠ k := fun hEq => h 0 (congrArg some hEq)

theorem Avoids.tail (h : Avoids next k a) (hNext : next a = some b) : Avoids next k b := by
  intro n hn
  apply h (n + 1)
  show (next a).bind _ = _
  rw [hNext]
  exact hn

theorem avoids_of_none (hNext : next a = none) (hk : a ≠ k) : Avoids next k a := by
  intro n
  cases n with
  | zero => exact fun h => hk (Option.some.inj h)
  | succ n =>
    show (next a).bind _ ≠ _
    rw [hNext]
    simp

/-- A chain that does not come to `k` is the same when the reference of `k` is another one. -/
theorem Avoids.follow_eq (hSame : ∀ a, a ≠ k → next' a = next a) (h : Avoids next k a) (n : Nat) :
    follow next' n a = follow next n a := by
  induction n generalizing a with
  | zero => rfl
  | succ n ih =>
    show (next' a).bind _ = (next a).bind _
    rw [hSame a h.ne]
    cases hNext : next a with
    | none => rfl
    | some b => exact ih (h.tail hNext)

/-- With fewer references. -/
theorem Finishes.mono (h : Finishes next a) (hLess : ∀ a b, next' a = some b → next a = some b) :
    Finishes next' a := by
  induction h with
  | intro _ ih => exact .intro fun b hb => ih b (hLess _ b hb)

/-- A chain that does not come to the replaced entry is what it was. -/
theorem Finishes.avoiding (h : Finishes next a) (hSame : ∀ a, a ≠ k → next' a = next a)
    (hAvoids : Avoids next k a) : Finishes next' a := by
  induction h with
  | @intro a _ ih =>
    refine .intro fun b hb => ?_
    rw [hSame a hAvoids.ne] at hb
    exact ih b hb (hAvoids.tail hb)

theorem Finishes.replace (h : Finishes next a) (hSame : ∀ a, a ≠ k → next' a = next a)
    (hk : Finishes next' k) : Finishes next' a := by
  induction h with
  | @intro a _ ih =>
    by_cases ha : a = k
    · exact ha ▸ hk
    · refine .intro fun b hb => ih b ?_
      rwa [hSame a ha] at hb

theorem finishes_update (hSame : ∀ a, a ≠ k → next' a = next a)
    (hNew : ∀ e, next' k = some e → Finishes next e ∧ Avoids next k e) (h : Finishes next a) :
    Finishes next' a := by
  refine h.replace hSame (.intro fun e he => ?_)
  obtain ⟨hFinishes, hAvoids⟩ := hNew e he
  exact hFinishes.avoiding hSame hAvoids

/-- A chain with an end has no cycle. -/
theorem Finishes.follow_ne (h : Finishes next a) (n : Nat) : follow next (n + 1) a ≠ some a := by
  induction h generalizing n with
  | @intro a _ ih =>
    intro hCycle
    obtain ⟨b, hb, hBack⟩ := Option.bind_eq_some_iff.1 hCycle
    apply ih b hb n
    rw [follow_succ, hBack]
    exact hb

theorem follow_add (next : α → Option α) (m n : Nat) (a : α) :
    follow next (m + n) a = (follow next m a).bind (follow next n) := by
  induction m generalizing a with
  | zero => rw [Nat.zero_add]; rfl
  | succ m ih =>
    rw [Nat.succ_add]
    show (next a).bind (follow next (m + n)) = ((next a).bind (follow next m)).bind (follow next n)
    rw [Option.bind_assoc]
    exact congrArg _ (funext ih)

theorem Finishes.later (h : Finishes next a) {n : Nat} (hFollow : follow next n a = some b) :
    Finishes next b := by
  induction n generalizing a with
  | zero =>
    cases hFollow
    exact h
  | succ n ih =>
    obtain ⟨c, hNext, hRest⟩ := Option.bind_eq_some_iff.1 hFollow
    cases h with
    | intro hAll => exact ih (hAll c hNext) hRest

theorem Finishes.once (h : Finishes next a) : Once next a := by
  have hLt {i j : Nat} {b : α} (hi : follow next i a = some b)
      (hj : follow next j a = some b) : ¬ i < j := by
    intro hLess
    obtain ⟨n, rfl⟩ := Nat.exists_eq_add_of_lt hLess
    rw [Nat.add_assoc, follow_add, hi] at hj
    exact (h.later hi).follow_ne n hj
  exact fun i j b hi hj => Nat.le_antisymm (Nat.not_lt.1 (hLt hj hi)) (Nat.not_lt.1 (hLt hi hj))

/-- A chain that stops somewhere has an end. -/
theorem finishes_of_follow_none {n : Nat} (h : follow next n a = none) : Finishes next a := by
  induction n generalizing a with
  | zero => cases h
  | succ n ih =>
    refine .intro fun b hb => ih ?_
    rwa [follow_of_some hb] at h

/-- Where the chain comes to finitely many entries only. -/
theorem finishes_iff (hFinite : {b | ∃ n, follow next n a = some b}.Finite) :
    Finishes next a ↔ Once next a := by
  refine ⟨Finishes.once, fun hOnce => ?_⟩
  by_contra hNot
  have hSome (n : Nat) : ∃ b, follow next n a = some b :=
    Option.ne_none_iff_exists'.1 fun h => hNot (finishes_of_follow_none h)
  choose place hAt using hSome
  have hInjective : Function.Injective place := fun i j hEq =>
    hOnce i j (place i) (hAt i) (hEq ▸ hAt j)
  exact absurd hFinite
    (Set.infinite_of_injective_forall_mem hInjective fun n => ⟨n, hAt n⟩)

theorem finishes_of_follow {n : Nat} (h : follow next n a = some e) (hEnd : next e = none) :
    Finishes next a := by
  induction n generalizing a with
  | zero =>
    cases h
    exact finishes_of_none hEnd
  | succ n ih =>
    refine .intro fun b hb => ?_
    rw [follow_of_some hb] at h
    exact ih h

theorem Finishes.end (h : Finishes next a) : ∃ n z, follow next n a = some z ∧ next z = none := by
  induction h with
  | @intro a _ ih =>
    cases hNext : next a with
    | none => exact ⟨0, a, rfl, hNext⟩
    | some b =>
      obtain ⟨n, z, hz, hEnd⟩ := ih b hNext
      exact ⟨n + 1, z, (follow_of_some hNext n).trans hz, hEnd⟩

/-- What a chain has left behind refers to something. -/
theorem next_of_follow {m n : Nat} (h : follow next n a = some e) (hLess : m < n)
    (hb : follow next m a = some b) : ∃ c, next b = some c := by
  induction m generalizing a n with
  | zero =>
    obtain ⟨n, rfl⟩ := Nat.exists_eq_succ_of_ne_zero (Nat.ne_zero_of_lt hLess)
    cases hb
    obtain ⟨c, hNext, -⟩ := Option.bind_eq_some_iff.1 h
    exact ⟨c, hNext⟩
  | succ m ih =>
    obtain ⟨n, rfl⟩ := Nat.exists_eq_succ_of_ne_zero (Nat.ne_zero_of_lt hLess)
    obtain ⟨c, hNext, hRest⟩ := Option.bind_eq_some_iff.1 h
    rw [follow_of_some hNext] at hb
    exact ih hRest (Nat.lt_of_succ_lt_succ hLess) hb

/-- With every entry that refers to another one in `S`, the end is no further away than the
size of `S`. -/
theorem finishes_within {S : Finset α} (h : Finishes next a)
    (hS : ∀ n c, follow next n a = some c → next c ≠ none → c ∈ S) :
    ∃ n ≤ S.card, ∃ z, follow next n a = some z ∧ next z = none := by
  classical
  induction h generalizing S with
  | @intro a h ih =>
    cases hNext : next a with
    | none => exact ⟨0, Nat.zero_le _, a, rfl, hNext⟩
    | some b =>
      have hMem : a ∈ S := hS 0 a rfl (by rw [hNext]; simp)
      have hStep := follow_of_some hNext
      obtain ⟨n, hn, z, hz, hEnd⟩ := @ih b hNext (S.erase a) fun n c hc hMore => by
        refine Finset.mem_erase.2 ⟨?_, hS (n + 1) c ((hStep n).trans hc) hMore⟩
        rintro rfl
        exact (Finishes.intro h).follow_ne n ((hStep n).trans hc)
      rw [Finset.card_erase_of_mem hMem] at hn
      have hPos := Finset.card_pos.2 ⟨a, hMem⟩
      exact ⟨n + 1, by omega, z, (hStep n).trans hz, hEnd⟩

end TcfAgent.Lib
