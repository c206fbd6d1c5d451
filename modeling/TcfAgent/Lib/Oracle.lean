import Mathlib.Logic.Basic

/-!
# Computations that ask an oracle

A recursive function with fuel is a chain of better and better approximations; each of them
takes its recursive calls from the one before. One unfolding of it is a computation that asks
an oracle, one question after the other, and passes on an error of the oracle at once
(`Sequential`). One error, `stop`, stands for a lack of fuel.

Results:

* `Sequential.mono`      — a better oracle leads to a better result;
* `Sequential.ends`      — when every question that is asked has an answer in some
  approximation, the computation ends with one of them;
* `Sequential.asked_ends` — when the computation ends, every question that it asks has been
  answered.
-/

namespace TcfAgent.Lib

universe u

variable {ε ι : Type*} {α β γ : Type u} {stop : ε}

/-- `x` did not lack fuel. -/
def Ends (stop : ε) (x : Except ε α) : Prop := x ≠ .error stop

/-- `x` lacked fuel, or is `y`. -/
def Le (stop : ε) (x y : Except ε α) : Prop := x = .error stop ∨ x = y

/-- A computation asks one question after the other, and its own parts end. -/
inductive Sequential (stop : ε) : ((ι → Except ε α) → Except ε β) → Prop
  | done {x : Except ε β} (h : Ends stop x) : Sequential stop fun _ => x
  | ask (i : ι) (k : α → (ι → Except ε α) → Except ε β) (h : ∀ a, Sequential stop (k a)) :
    Sequential stop fun o => o i >>= fun a => k a o

open Classical in
/-- The oracle fails with `e` when it is asked for `i`. -/
noncomputable def failAt (o : ι → Except ε α) (i : ι) (e : ε) : ι → Except ε α :=
  fun j => if j = i then .error e else o j

/-- The computation asks for `i`: whatever error it gets there is its own. -/
def Asked (stop : ε) (F : (ι → Except ε α) → Except ε β) (o : ι → Except ε α) (i : ι) : Prop :=
  ∀ e, e ≠ stop → F (failAt o i e) = .error e

/-! ## Computations that end -/

@[simp] theorem ends_ok (a : α) : Ends stop (.ok a) := fun h => by cases h

@[simp] theorem ends_pure (a : α) : Ends stop (pure a) := fun h => by cases h

@[simp] theorem ends_error {e : ε} : Ends stop (.error e : Except ε α) ↔ e ≠ stop := by
  simp [Ends]

variable {x : Except ε α}

@[simp] theorem ends_bind {f : α → Except ε β} :
    Ends stop (x >>= f) ↔ Ends stop x ∧ ∀ a, x = .ok a → Ends stop (f a) := by
  cases x with
  | error e => simp [Ends, bind, Except.bind]
  | ok a => simp [bind, Except.bind]

variable {x y : Except ε α}

@[simp] theorem ends_ite {p : Prop} [Decidable p] :
    Ends stop (if p then x else y) ↔ (p → Ends stop x) ∧ (¬ p → Ends stop y) := by
  split <;> simp_all

@[simp] theorem ends_map {f : α → β} : Ends stop (x.map f) ↔ Ends stop x := by
  cases x <;> simp [Ends, Except.map]

@[simp] theorem ends_functor {f : α → β} : Ends stop (f <$> x) ↔ Ends stop x :=
  ends_map

theorem Le.refl (x : Except ε α) : Le stop x x := .inr rfl

theorem Le.eq (h : Le stop x y) (hx : Ends stop x) : x = y :=
  h.resolve_left hx

theorem Le.ends (h : Le stop x y) (hx : Ends stop x) : Ends stop y :=
  h.eq hx ▸ hx

theorem Le.bind {f g : α → Except ε β} (h : Le stop x y)
    (hf : ∀ a, Le stop (f a) (g a)) : Le stop (x >>= f) (y >>= g) := by
  rcases h with rfl | rfl
  · exact .inl rfl
  · cases x with
    | error e => exact .inr rfl
    | ok a => exact hf a

/-- Two results of a chain of approximations that both end are the same. -/
theorem eq_of_ends {x : Nat → Except ε α} (hMono : ∀ n m, n ≤ m → Le stop (x n) (x m)) {n m : Nat}
    (hn : Ends stop (x n)) (hm : Ends stop (x m)) : x n = x m :=
  ((hMono n _ (Nat.le_max_left n m)).eq hn).trans ((hMono m _ (Nat.le_max_right n m)).eq hm).symm

/-! ## Sequential computations -/

theorem sequential_ask (i : ι) : Sequential stop fun o : ι → Except ε α => o i := by
  have h : Sequential stop fun o : ι → Except ε α => o i >>= fun a => pure a :=
    .ask i _ fun a => .done (ends_pure a)
  simpa using h

variable {F : (ι → Except ε α) → Except ε β}

theorem Sequential.bind
    {G : β → (ι → Except ε α) → Except ε γ} (hF : Sequential stop F)
    (hG : ∀ b, Sequential stop (G b)) : Sequential stop fun o => F o >>= fun b => G b o := by
  induction hF with
  | @done x h =>
    cases x with
    | error e => exact .done (x := .error e) (by simpa using h)
    | ok b => exact hG b
  | ask i k _ ih =>
    simp only [bind_assoc]
    exact .ask i _ ih

variable {o o' : ι → Except ε α}

theorem Sequential.mono (hF : Sequential stop F)
    (h : ∀ i, Le stop (o i) (o' i)) : Le stop (F o) (F o') := by
  induction hF with
  | done _ => exact .refl _
  | ask i k _ ih => exact (h i).bind ih

theorem failAt_mono (h : ∀ i, Le stop (o i) (o' i)) (i : ι) (e : ε) (j : ι) :
    Le stop (failAt o i e j) (failAt o' i e j) := by
  unfold failAt
  split
  · exact .refl _
  · exact h j

/-- What is asked of an oracle is asked of a better one. -/
theorem Sequential.asked_mono (hF : Sequential stop F)
    (h : ∀ i, Le stop (o i) (o' i)) {i : ι} (hAsked : Asked stop F o i) :
    Asked stop F o' i := by
  intro e he
  have hLe := hF.mono (failAt_mono h i e)
  rw [hAsked e he] at hLe
  exact (hLe.eq (ends_error.2 he)).symm

section

variable {f : Nat → ι → Except ε α} (hMono : ∀ n m, n ≤ m → ∀ i, Le stop (f n i) (f m i))
include hMono

theorem Sequential.ends (hF : Sequential stop F)
    (h : ∀ i, (∃ n, Asked stop F (f n) i) → ∃ n, Ends stop (f n i)) :
    ∃ n, Ends stop (F (f n)) := by
  induction hF with
  | done hEnds => exact ⟨0, hEnds⟩
  | ask i k hk ih =>
    have hFirst : ∃ n, Asked stop (fun o => o i >>= fun a => k a o) (f n) i := by
      refine ⟨0, fun e _ => ?_⟩
      have hFail : failAt (f 0) i e i = .error e := if_pos rfl
      simp only [hFail]
      rfl
    obtain ⟨n, hn⟩ := h i hFirst
    cases hAnswer : f n i with
    | error e =>
      refine ⟨n, ?_⟩
      rw [hAnswer] at hn
      simp only [hAnswer]
      exact ends_bind.2 ⟨hn, fun a h => by cases h⟩
    | ok a =>
      -- the other questions are those of the rest
      have hBest : ∀ m, n ≤ m → f m i = .ok a := fun m hm => by
        rw [← (hMono n m hm i).eq hn, hAnswer]
      obtain ⟨m, hm⟩ := ih a fun j ⟨m, hj⟩ => by
        by_cases hji : j = i
        · exact ⟨n, hji ▸ hn⟩
        · refine h j ⟨max n m, fun e he => ?_⟩
          have hOther : failAt (f (max n m)) j e i = .ok a := by
            unfold failAt
            rw [if_neg (Ne.symm hji), hBest _ (Nat.le_max_left n m)]
          have hLater := (hk a).asked_mono (hMono m _ (Nat.le_max_right n m)) hj
          simp only [hOther]
          exact hLater e he
      refine ⟨max n m, ?_⟩
      simp only [hBest _ (Nat.le_max_left n m)]
      exact ((hk a).mono (hMono m _ (Nat.le_max_right n m))).ends hm

/-- There have to be two other errors, so that an error of the computation itself is not taken
for one of the oracle. -/
theorem Sequential.asked_ends (hF : Sequential stop F)
    {e e' : ε} (he : e ≠ stop) (he' : e' ≠ stop) (hTwo : e ≠ e') {i : ι} {n m : Nat}
    (hAsked : Asked stop F (f m) i) (hEnds : Ends stop (F (f n))) : Ends stop (f n i) := by
  intro hStop
  have hFail (x : ε) : ∀ j, Le stop (f n j) (failAt (f (max n m)) i x j) := fun j => by
    unfold failAt
    split
    · rename_i hj
      exact .inl (hj ▸ hStop)
    · exact hMono n _ (Nat.le_max_left n m) j
  have hLater := hF.asked_mono (hMono m _ (Nat.le_max_right n m)) hAsked
  have hOne := (hF.mono (hFail e)).eq hEnds
  have hOther := (hF.mono (hFail e')).eq hEnds
  rw [hLater e he] at hOne
  rw [hLater e' he'] at hOther
  exact hTwo (Except.error.inj (hOne.symm.trans hOther))

end

end TcfAgent.Lib
