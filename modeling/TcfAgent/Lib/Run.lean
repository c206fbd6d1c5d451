import Mathlib.Data.List.Basic
import Mathlib.Tactic

/-!
# Runs of a partial step function

A component is a state type, an event type and `step : σ → ε → Option σ`;
`none` is a failed assertion. Everything said about "every run" in this
development is said through two definitions:

* `run`    — take a list of events in order, from a given state;
* `Meets`  — every event of the list meets a condition in the state it finds.

The rules are the usual ones: an invariant that every step keeps holds at the
end of every run (`run_invariant`), and when every step that meets its
condition also succeeds, the whole run succeeds (`run_total`); when a measure
becomes less besides, it comes to an end (`run_reaches`).
-/

namespace TcfAgent.Lib

variable {σ ε : Type*} {step : σ → ε → Option σ} {C D : σ → ε → Prop}

/-- Take the events in order; `none` as soon as one of them fails. -/
def run (step : σ → ε → Option σ) : σ → List ε → Option σ
  | s, [] => some s
  | s, e :: es => (step s e).bind fun s' => run step s' es

/-- Every event meets `C` in the state in which it is taken. -/
def Meets (step : σ → ε → Option σ) (C : σ → ε → Prop) : σ → List ε → Prop
  | _, [] => True
  | s, e :: es => C s e ∧ ∀ s', step s e = some s' → Meets step C s' es

@[simp] theorem run_nil (s : σ) : run step s [] = some s := rfl

@[simp] theorem run_cons (s : σ) (e : ε) (es : List ε) :
    run step s (e :: es) = (step s e).bind fun s' => run step s' es := rfl

@[simp] theorem meets_nil (s : σ) : Meets step C s [] := trivial

@[simp] theorem meets_cons (s : σ) (e : ε) (es : List ε) :
    Meets step C s (e :: es) ↔ C s e ∧ ∀ s', step s e = some s' → Meets step C s' es :=
  Iff.rfl

theorem run_append (s : σ) (es fs : List ε) :
    run step s (es ++ fs) = (run step s es).bind fun s' => run step s' fs := by
  induction es generalizing s with
  | nil => simp
  | cons e es ih =>
    cases hStep : step s e with
    | none => simp [hStep]
    | some s' => simp [hStep, ih]

variable {s : σ} {es : List ε}

theorem run_concat {e : ε} {s' : σ} :
    run step s (es ++ [e]) = some s' ↔ ∃ t, run step s es = some t ∧ step t e = some s' := by
  rw [run_append, Option.bind_eq_some_iff]
  simp [run]

/-- Whether the events of a run meet a condition can be computed. -/
instance decidableMeets [∀ s e, Decidable (C s e)] : ∀ s es, Decidable (Meets step C s es)
  | _, [] => isTrue trivial
  | s, e :: es =>
    match hStep : step s e with
    | none => decidable_of_iff (C s e) (by simp [hStep])
    | some s' =>
      haveI := decidableMeets s' es
      decidable_of_iff (C s e ∧ Meets step C s' es) (by simp [hStep])

/-- A weaker condition is met wherever a stronger one is. -/
theorem Meets.mono (hCD : ∀ s e, C s e → D s e) (h : Meets step C s es) : Meets step D s es := by
  induction es generalizing s with
  | nil => trivial
  | cons e es ih => exact ⟨hCD _ _ h.1, fun s' hs' => ih (h.2 s' hs')⟩

/-- The first events of a run meet their condition as well. -/
theorem Meets.take (h : Meets step C s es) (k : ℕ) : Meets step C s (es.take k) := by
  induction k generalizing s es with
  | zero => exact trivial
  | succ k ih =>
    rcases es with - | ⟨e, es⟩
    · exact trivial
    · exact ⟨h.1, fun s' hs' => ih (h.2 s' hs')⟩

/-- A condition on the events alone. -/
theorem meets_of_forall {K : ε → Prop} (h : ∀ e ∈ es, K e) :
    Meets step (fun _ e => K e) s es := by
  induction es generalizing s with
  | nil => trivial
  | cons e es ih =>
    exact ⟨h e List.mem_cons_self, fun _ _ => ih fun e he => h e (List.mem_cons_of_mem _ he)⟩

theorem Meets.and (hC : Meets step C s es) (hD : Meets step D s es) :
    Meets step (fun s e => C s e ∧ D s e) s es := by
  induction es generalizing s with
  | nil => trivial
  | cons e es ih => exact ⟨⟨hC.1, hD.1⟩, fun s' hs' => ih (hC.2 s' hs') (hD.2 s' hs')⟩

/-- What every step keeps, under the condition the events meet, a run keeps. -/
theorem run_invariant {P : σ → Prop}
    (hStep : ∀ s e s', P s → C s e → step s e = some s' → P s')
    {s s' : σ} (hP : P s) (hC : Meets step C s es)
    (hRun : run step s es = some s') : P s' := by
  induction es generalizing s with
  | nil =>
    cases hRun
    exact hP
  | cons e es ih =>
    obtain ⟨t, ht, hRest⟩ := Option.bind_eq_some_iff.mp hRun
    exact ih (hStep _ _ _ hP hC.1 ht) (hC.2 t ht) hRest

/-- When every step that meets its condition succeeds and keeps `P`, a run whose
events meet the condition succeeds and ends in `P`. -/
theorem run_total {P : σ → Prop}
    (hStep : ∀ s e, P s → C s e → ∃ s', step s e = some s' ∧ P s')
    (hP : P s) (hC : Meets step C s es) :
    ∃ s', run step s es = some s' ∧ P s' := by
  induction es generalizing s with
  | nil => exact ⟨s, rfl, hP⟩
  | cons e es ih =>
    obtain ⟨t, ht, hPt⟩ := hStep s e hP hC.1
    obtain ⟨s', hs', hPs'⟩ := ih hPt (hC.2 t ht)
    exact ⟨s', by simp [ht, hs'], hPs'⟩

/-- When every step that meets its condition succeeds, keeps `P` and makes `μ` less, taking the same
event again and again comes to an end. -/
theorem run_reaches {P Done : σ → Prop} {μ : σ → Nat} {e : ε}
    (hStep : ∀ s, P s → C s e → ¬ Done s →
      ∃ s', step s e = some s' ∧ P s' ∧ (¬ Done s' → μ s' < μ s))
    (hP : P s) (hC : ∀ n, Meets step C s (List.replicate n e)) :
    ∃ n s', run step s (List.replicate n e) = some s' ∧ P s' ∧ Done s' := by
  induction hμ : μ s using Nat.strong_induction_on generalizing s with
  | _ m ih =>
    by_cases hDone : Done s
    · exact ⟨0, s, rfl, hP, hDone⟩
    · obtain ⟨t, ht, hPt, hLess⟩ := hStep s hP (hC 1).1 hDone
      by_cases hEnd : Done t
      · exact ⟨1, t, by simp [ht], hPt, hEnd⟩
      · have hRest : ∀ n, Meets step C t (List.replicate n e) := fun n => (hC (n + 1)).2 t ht
        obtain ⟨n, s', hRun, hPs', hs'⟩ := ih (μ t) (hμ ▸ hLess hEnd) hPt hRest rfl
        exact ⟨n + 1, s', by simp [List.replicate_succ, ht, hRun], hPs', hs'⟩

end TcfAgent.Lib
