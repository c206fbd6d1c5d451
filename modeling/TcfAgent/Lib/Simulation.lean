import TcfAgent.Lib.Run

/-!
# Logs accepted by an abstract machine

A component writes what can be observed of it to a log, `log s`. An abstract machine,
`A : τ → ο → Option τ`, says which observations are right: it reads them one by one and
gets stuck at one that is not. A state is tracked by a state of the abstract machine when
the machine reads the whole log and ends there, and the two states are related.

`Tracks.append` adds the observations of one step (the relation may be another one after
it, in the middle of what the component does), and `tracks_run` is the induction over
a run.
-/

namespace TcfAgent.Lib

variable {σ ε τ ο : Type*} {step : σ → ε → Option σ} {C : σ → ε → Prop}
variable {log : σ → List ο} {A : τ → ο → Option τ} {R R' : σ → τ → Prop} {t₀ : τ}

/-- The abstract machine, started in `t₀`, reads the log of `s` and ends in `t`. -/
structure Tracks (log : σ → List ο) (A : τ → ο → Option τ) (R : σ → τ → Prop) (t₀ : τ)
    (s : σ) (t : τ) : Prop where
  accepts : run A t₀ (log s) = some t
  related : R s t

theorem Tracks.append {s s' : σ} {t t' : τ} (h : Tracks log A R t₀ s t) {out : List ο}
    (hLog : log s' = log s ++ out) (hRead : run A t out = some t') (hRel : R' s' t') :
    Tracks log A R' t₀ s' t' := by
  refine ⟨?_, hRel⟩
  rw [hLog, run_append, h.accepts]
  exact hRead

/-- Nothing is observed. -/
theorem Tracks.silent {s s' : σ} {t : τ} (h : Tracks log A R t₀ s t) (hLog : log s' = log s)
    (hRel : R' s' t) : Tracks log A R' t₀ s' t := by
  have hNone : log s' = log s ++ [] := by rw [hLog, List.append_nil]
  exact h.append hNone rfl hRel

/-- When every step can be tracked, every run is. -/
theorem tracks_run
    (hStep : ∀ s t e, Tracks log A R t₀ s t → C s e →
      ∃ s' t', step s e = some s' ∧ Tracks log A R t₀ s' t')
    {s : σ} {t : τ} {es : List ε} (h : Tracks log A R t₀ s t) (hC : Meets step C s es) :
    ∃ s' t', run step s es = some s' ∧ Tracks log A R t₀ s' t' := by
  have hTotal : ∃ s', run step s es = some s' ∧ ∃ t', Tracks log A R t₀ s' t' := by
    refine run_total (P := fun s => ∃ t, Tracks log A R t₀ s t) ?_ ⟨t, h⟩ hC
    rintro s e ⟨t, ht⟩ he
    obtain ⟨s', t', hEq, h'⟩ := hStep s t e ht he
    exact ⟨s', hEq, t', h'⟩
  obtain ⟨s', hRun, t', h'⟩ := hTotal
  exact ⟨s', t', hRun, h'⟩

end TcfAgent.Lib
