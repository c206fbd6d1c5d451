import Mathlib.Tactic

/-!
# Programs with loops

Programs with a state, exceptions and loops that may go round for ever. A program is run with a
number that each of its loops stays below, and has no result as long as the number is too small. A
result stays the same for larger numbers (`steady`), so that it is the result of the program.

Two judgments are enough for what is said here about ends:

* `Ends p n s Q E` — with the number `n`, `p` ends: `Q` holds where it returns, `E` where it raises;
* `Never p s`      — whatever the number, `p` does not end.

Main results:

* `Ends.bind`, `Ends.loop`   — programs in sequence, and loops with a measure;
* `Never.bind`, `Never.loop` — a program that is not reached, and a loop that is never left.
-/

namespace TcfAgent.Lib

/-- The result and the state after it, if no loop takes as many rounds as the number. -/
structure Program (σ ε α : Type) where
  run    : Nat → σ → Option (Except ε α × σ)
  steady : ∀ {n m : Nat} {s : σ} {r : Except ε α × σ}, n ≤ m → run n s = some r → run m s = some r

namespace Program

variable {σ ε α β γ : Type}

/-! ## Programs -/

/-- What comes after a result. -/
def andThen (r : Except ε α × σ) (next : α → σ → Option (Except ε β × σ)) :
    Option (Except ε β × σ) :=
  match r with
  | (.ok a, s) => next a s
  | (.error e, s) => some (.error e, s)

theorem andThen_steady {r : Except ε α × σ} {next next' : α → σ → Option (Except ε β × σ)}
    {t : Except ε β × σ} (h : ∀ a s, next a s = some t → next' a s = some t)
    (hNext : andThen r next = some t) : andThen r next' = some t := by
  obtain ⟨r, s⟩ := r
  cases r with
  | ok a => exact h a s hNext
  | error e => exact hNext

/-- A program without loops. -/
def plain (f : σ → Except ε α × σ) : Program σ ε α where
  run _ s := some (f s)
  steady _ h := h

theorem bind_steady {p : Program σ ε α} {q : α → Program σ ε β} {n m : Nat} {s : σ}
    {r : Except ε β × σ} (hLe : n ≤ m)
    (h : ((p.run n s).bind fun x => andThen x fun a => (q a).run n) = some r) :
    ((p.run m s).bind fun x => andThen x fun a => (q a).run m) = some r := by
  obtain ⟨x, hx, hNext⟩ := Option.bind_eq_some_iff.1 h
  rw [p.steady hLe hx]
  exact andThen_steady (fun a s => (q a).steady hLe) hNext

instance : Monad (Program σ ε) where
  pure a := plain fun s => (.ok a, s)
  bind p q :=
    { run := fun n s => (p.run n s).bind fun x => andThen x fun a => (q a).run n
      steady := bind_steady }

def raise (e : ε) : Program σ ε α := plain fun s => (.error e, s)

def get : Program σ ε σ := plain fun s => (.ok s, s)

def modify (f : σ → σ) : Program σ ε Unit := plain fun s => (.ok ⟨⟩, f s)

@[simp] theorem andThen_ok (a : α) (s : σ) (next : α → σ → Option (Except ε β × σ)) :
    andThen (.ok a, s) next = next a s := rfl

@[simp] theorem andThen_error (e : ε) (s : σ) (next : α → σ → Option (Except ε β × σ)) :
    andThen (.error e, s) next = some (.error e, s) := rfl

@[simp] theorem run_plain (f : σ → Except ε α × σ) (n : Nat) (s : σ) :
    (plain f).run n s = some (f s) := rfl

@[simp] theorem run_pure (a : α) (n : Nat) (s : σ) :
    (pure a : Program σ ε α).run n s = some (.ok a, s) := rfl

@[simp] theorem run_bind (p : Program σ ε α) (q : α → Program σ ε β) (n : Nat) (s : σ) :
    (p >>= q).run n s = (p.run n s).bind fun x => andThen x fun a => (q a).run n := rfl

@[simp] theorem run_raise (e : ε) (n : Nat) (s : σ) :
    (raise e : Program σ ε α).run n s = some (.error e, s) := rfl

@[simp] theorem run_get (n : Nat) (s : σ) :
    (get : Program σ ε σ).run n s = some (.ok s, s) := rfl

@[simp] theorem run_modify (f : σ → σ) (n : Nat) (s : σ) :
    (modify f : Program σ ε Unit).run n s = some (.ok ⟨⟩, f s) := rfl

theorem ext {p q : Program σ ε α} (h : ∀ n s, p.run n s = q.run n s) : p = q := by
  obtain ⟨run, hSteady⟩ := p
  obtain ⟨run', hSteady'⟩ := q
  obtain rfl : run = run' := funext fun n => funext fun s => h n s
  rfl

theorem then_assoc (p : Program σ ε α) (q : α → Program σ ε β) (r : β → Program σ ε γ) :
    (p >>= q) >>= r = p >>= fun a => q a >>= r := by
  refine ext fun n s => ?_
  simp only [run_bind]
  rcases p.run n s with - | ⟨e | a, t⟩
  · rfl
  · rfl
  · rfl

theorem pure_then (a : α) (q : α → Program σ ε β) : (pure a : Program σ ε α) >>= q = q a := rfl

theorem ite_then (c : Prop) [Decidable c] (p p' : Program σ ε α) (q : α → Program σ ε β) :
    (if c then p else p') >>= q = if c then p >>= q else p' >>= q := by
  split
  · rfl
  · rfl

/-- A program, and what is done when it raises an exception. -/
def catching (p : Program σ ε α) (handle : ε → Program σ ε α) : Program σ ε α where
  run n s := (p.run n s).bind fun
    | (.ok a, t) => some (.ok a, t)
    | (.error e, t) => (handle e).run n t
  steady := by
    intro n m s r hLe h
    obtain ⟨⟨x, t⟩, hx, hNext⟩ := Option.bind_eq_some_iff.1 h
    rw [p.steady hLe hx]
    cases x with
    | ok a => exact hNext
    | error e => exact (handle e).steady hLe hNext

/-- Go round at most `k` times. -/
def loopFrom (step : β → Program σ ε (β ⊕ γ)) (n : Nat) : Nat → β → σ → Option (Except ε γ × σ)
  | 0, _, _ => none
  | k + 1, b, s => ((step b).run n s).bind fun x => andThen x fun next s' =>
      next.elim (fun b' => loopFrom step n k b' s') fun c => some (.ok c, s')

theorem loopFrom_steady {step : β → Program σ ε (β ⊕ γ)} {n m : Nat} (hLe : n ≤ m) :
    ∀ {k l : Nat} {b : β} {s : σ} {r : Except ε γ × σ}, k ≤ l →
      loopFrom step n k b s = some r → loopFrom step m l b s = some r := by
  intro k
  induction k with
  | zero =>
    intro l b s r hk h
    cases h
  | succ k ih =>
    intro l b s r hk h
    obtain ⟨l, rfl⟩ := Nat.exists_eq_add_of_lt (Nat.lt_of_lt_of_le (Nat.succ_pos k) hk)
    rw [Nat.zero_add] at hk ⊢
    obtain ⟨x, hx, hNext⟩ := Option.bind_eq_some_iff.1 h
    rw [loopFrom, (step b).steady hLe hx]
    refine andThen_steady (fun next s' hs' => ?_) hNext
    cases next with
    | inl b' => exact ih (Nat.le_of_succ_le_succ hk) hs'
    | inr c => exact hs'

/-- A loop, from a value that every round takes and either gives to the next one or leaves with. -/
def loop (step : β → Program σ ε (β ⊕ γ)) (b : β) : Program σ ε γ where
  run n s := loopFrom step n n b s
  steady hLe h := loopFrom_steady hLe hLe h

/-! ## Programs that end -/

/-- The program ends: in `Q` if it returns, and in `E` if it raises an exception. -/
def Ends (p : Program σ ε α) (n : Nat) (s : σ) (Q : α → σ → Prop) (E : ε → σ → Prop) : Prop :=
  ∃ r s', p.run n s = some (r, s') ∧ (∀ a, r = .ok a → Q a s') ∧ ∀ e, r = .error e → E e s'

/-- The program does not end. -/
def Never (p : Program σ ε α) (s : σ) : Prop := ∀ n, p.run n s = none

section

variable {p : Program σ ε α} {q : α → Program σ ε β} {step : β → Program σ ε (β ⊕ γ)} {n m : Nat}
  {s t : σ} {a : α} {b : β} {e : ε} {Q Q' : α → σ → Prop} {R : β → σ → Prop} {S : γ → σ → Prop}
  {E : ε → σ → Prop}

/-- What a program comes to does not depend on the number. -/
theorem run_unique {r r' : Except ε α × σ} (h : p.run n s = some r) (h' : p.run m s = some r') :
    r = r' := by
  have hLeft := p.steady (Nat.le_max_left n m) h
  have hRight := p.steady (Nat.le_max_right n m) h'
  exact Option.some.inj (hLeft.symm.trans hRight)

theorem Ends.mono (h : Ends p n s Q E) (hQ : ∀ a t, Q a t → Q' a t) : Ends p n s Q' E := by
  obtain ⟨r, s', hRun, hOk, hError⟩ := h
  exact ⟨r, s', hRun, fun a ha => hQ a s' (hOk a ha), hError⟩

theorem ends_ok (h : p.run n s = some (.ok a, t)) (hQ : Q a t) : Ends p n s Q E := by
  refine ⟨_, t, h, ?_, ?_⟩
  · intro a' ha
    rw [← Except.ok.inj ha]
    exact hQ
  · intro e he
    cases he

theorem ends_error (h : p.run n s = some (.error e, t)) (hE : E e t) : Ends p n s Q E := by
  refine ⟨_, t, h, ?_, ?_⟩
  · intro a ha
    cases ha
  · intro e' he
    rw [← Except.error.inj he]
    exact hE

theorem ends_pure (h : Q a s) : Ends (pure a) n s Q E := ends_ok rfl h

theorem ends_raise (h : E e s) : Ends (@raise σ ε α e) n s Q E := ends_error rfl h

theorem run_bind_ok (h : p.run n s = some (.ok a, t)) : (p >>= q).run n s = (q a).run n t := by
  show ((p.run n s).bind _) = _
  rw [h]
  rfl

theorem run_bind_error (h : p.run n s = some (.error e, t)) :
    (p >>= q).run n s = some (.error e, t) := by
  show ((p.run n s).bind _) = _
  rw [h]
  rfl

variable {handle : ε → Program σ ε α}

theorem run_catching_ok (h : p.run n s = some (.ok a, t)) :
    (catching p handle).run n s = some (.ok a, t) := by
  show ((p.run n s).bind _) = _
  rw [h]
  rfl

theorem run_catching_error (h : p.run n s = some (.error e, t)) :
    (catching p handle).run n s = (handle e).run n t := by
  show ((p.run n s).bind _) = _
  rw [h]
  rfl

theorem Ends.bind (h : Ends p n s Q E) (hNext : ∀ a t, Q a t → Ends (q a) n t R E) :
    Ends (p >>= q) n s R E := by
  obtain ⟨r, s', hRun, hOk, hError⟩ := h
  cases r with
  | ok a =>
    obtain ⟨r', s'', hRun', hEnds⟩ := hNext a s' (hOk a rfl)
    exact ⟨r', s'', (run_bind_ok hRun).trans hRun', hEnds⟩
  | error e => exact ends_error (run_bind_error hRun) (hError e rfl)

theorem Ends.after (h : p.run n s = some (.ok a, t)) (hNext : Ends (q a) n t R E) :
    Ends (p >>= q) n s R E := by
  obtain ⟨r, s', hRun, hEnds⟩ := hNext
  exact ⟨r, s', (run_bind_ok h).trans hRun, hEnds⟩

theorem Ends.not_never (h : Ends p n s Q E) : ¬ Never p s := by
  intro hNever
  obtain ⟨r, s', hRun, -⟩ := h
  rw [hNever n] at hRun
  cases hRun

/-! ## Loops -/

theorem loopFrom_continue {k : Nat} {c : β} (h : (step b).run n s = some (.ok (.inl c), t)) :
    loopFrom step n (k + 1) b s = loopFrom step n k c t := by
  rw [loopFrom, h]
  rfl

theorem loopFrom_break {k : Nat} {c : γ} (h : (step b).run n s = some (.ok (.inr c), t)) :
    loopFrom step n (k + 1) b s = some (.ok c, t) := by
  rw [loopFrom, h]
  rfl

theorem loopFrom_error {k : Nat} (h : (step b).run n s = some (.error e, t)) :
    loopFrom step n (k + 1) b s = some (.error e, t) := by
  rw [loopFrom, h]
  rfl

/-- A round that is not the last one. -/
theorem ends_again {round : Program σ ε (β ⊕ γ)} {c : β}
    (h : round.run n s = some (.ok (.inl c), t)) (hR : R c t) :
    Ends round n s (fun next t => next.elim (fun c => R c t) fun c => S c t) E := ends_ok h hR

/-- A round that leaves the loop. -/
theorem ends_leave {round : Program σ ε (β ⊕ γ)} {c : γ}
    (h : round.run n s = some (.ok (.inr c), t)) (hS : S c t) :
    Ends round n s (fun next t => next.elim (fun c => R c t) fun c => S c t) E := ends_ok h hS

/-- A loop ends when a measure becomes less in every round and is below the number at first. -/
theorem Ends.loop {I : β → σ → Prop} (measure : β → σ → Nat) (hStart : I b s)
    (hLess : measure b s < n)
    (hStep : ∀ b s, I b s → Ends (step b) n s
      (fun next t => next.elim (fun b' => I b' t ∧ measure b' t < measure b s) fun c => S c t) E) :
    Ends (loop step b) n s S E := by
  have hLoop : ∀ k b s, I b s → measure b s < k → ∃ r s', loopFrom step n k b s = some (r, s') ∧
      (∀ c, r = .ok c → S c s') ∧ ∀ e, r = .error e → E e s' := by
    intro k
    induction k with
    | zero =>
      intro b s hI hk
      exact absurd hk (Nat.not_lt_zero _)
    | succ k ih =>
      intro b s hI hk
      obtain ⟨r, s', hRun, hOk, hError⟩ := hStep b s hI
      cases r with
      | ok next =>
        have hNext := hOk next rfl
        cases next with
        | inl b' =>
          rw [loopFrom_continue hRun]
          exact ih b' s' hNext.1 (by have := hNext.2; omega)
        | inr c =>
          refine ⟨.ok c, s', loopFrom_break hRun, ?_, ?_⟩
          · intro c' hc
            rw [← Except.ok.inj hc]
            exact hNext
          · intro e he
            cases he
      | error e =>
        refine ⟨.error e, s', loopFrom_error hRun, ?_, ?_⟩
        · intro c hc
          cases hc
        · intro e' he
          rw [← Except.error.inj he]
          exact hError e rfl
  exact hLoop n b s hStart hLess

/-- A loop that takes one item in every round, and is left when there are no more. -/
theorem run_loop_items {ι : Type} {R : List ι → β → σ → Prop} {Q : γ → σ → Prop} {items : List ι}
    (hStart : R items b s) (hLess : items.length < n)
    (hItem : ∀ i is b s, R (i :: is) b s →
      ∃ b' t, (step b).run n s = some (.ok (.inl b'), t) ∧ R is b' t)
    (hLast : ∀ b s, R [] b s → ∃ c t, (step b).run n s = some (.ok (.inr c), t) ∧ Q c t) :
    ∃ c t, (loop step b).run n s = some (.ok c, t) ∧ Q c t := by
  have hLoop : ∀ k b s, R items b s → items.length < k →
      ∃ c t, loopFrom step n k b s = some (.ok c, t) ∧ Q c t := by
    clear hStart hLess
    induction items with
    | nil =>
      intro k b s hR hk
      obtain ⟨k, rfl⟩ := Nat.exists_eq_succ_of_ne_zero (Nat.ne_of_gt hk)
      obtain ⟨c, t, hRun, hQ⟩ := hLast b s hR
      exact ⟨c, t, loopFrom_break hRun, hQ⟩
    | cons i is ih =>
      intro k b s hR hk
      obtain ⟨k, rfl⟩ := Nat.exists_eq_succ_of_ne_zero (Nat.ne_of_gt (Nat.zero_lt_of_lt hk))
      obtain ⟨b', t, hRun, hNext⟩ := hItem i is b s hR
      rw [loopFrom_continue hRun]
      exact ih k b' t hNext (Nat.lt_of_succ_lt_succ hk)
  exact hLoop n b s hStart hLess

/-! ## Programs that do not end -/

/-- It is enough that large numbers do not do. -/
theorem never_of_large (m : Nat) (h : ∀ n, m ≤ n → p.run n s = none) : Never p s := by
  intro n
  rw [Option.eq_none_iff_forall_ne_some]
  intro r hRun
  have hLarge := p.steady (Nat.le_max_left n m) hRun
  rw [h _ (Nat.le_max_right n m)] at hLarge
  cases hLarge

theorem Never.catching (h : Never p s) : Never (catching p handle) s := by
  intro n
  show ((p.run n s).bind _) = none
  rw [h n]
  rfl

theorem Never.bind_left (h : Never p s) : Never (p >>= q) s := by
  intro n
  show ((p.run n s).bind _) = none
  rw [h n]
  rfl

/-- What comes after a result does not end. -/
theorem Never.bind (h : p.run n s = some (.ok a, t)) (hNext : Never (q a) t) :
    Never (p >>= q) s := by
  intro m
  rcases Nat.le_total n m with hLe | hLe
  · rw [run_bind_ok (p.steady hLe h)]
    exact hNext m
  · -- with a smaller number the first program gives the same result or none
    cases hRun : p.run m s with
    | none =>
      show ((p.run m s).bind _) = none
      rw [hRun]
      rfl
    | some r =>
      have hSame : some r = some (.ok a, t) := (p.steady hLe hRun).symm.trans h
      rw [run_bind_ok (hRun.trans hSame)]
      exact hNext m

/-- A loop that does not end after its first round. -/
theorem Never.loop_next {b' : β} (h : (step b).run n s = some (.ok (.inl b'), t))
    (hNext : Never (loop step b') t) : Never (loop step b) s := by
  refine never_of_large (n + 1) fun m hm => ?_
  obtain ⟨k, rfl⟩ := Nat.exists_eq_add_of_le' (Nat.le_trans (Nat.le_add_left 1 n) hm)
  show loopFrom step (k + 1) (k + 1) b s = none
  rw [loopFrom_continue ((step b).steady (by omega) h), Option.eq_none_iff_forall_ne_some]
  intro r hRun
  have hSame := loopFrom_steady (Nat.le_refl (k + 1)) (Nat.le_succ k) hRun
  rw [show loopFrom step (k + 1) (k + 1) b' t = none from hNext (k + 1)] at hSame
  cases hSame

/-- A loop that finds what it started with in every round, or whose round does not end. -/
theorem Never.loop {I : β → σ → Prop} (hStart : I b s)
    (hStep : ∀ b s, I b s → Never (step b) s ∨
      ∃ n b' t, (step b).run n s = some (.ok (.inl b'), t) ∧ I b' t) :
    Never (loop step b) s := by
  have hLoop : ∀ n k b s, I b s → loopFrom step n k b s = none := by
    intro n k
    induction k with
    | zero =>
      intro b s hI
      rfl
    | succ k ih =>
      intro b s hI
      cases hRun : (step b).run n s with
      | none =>
        rw [loopFrom, hRun]
        rfl
      | some r =>
        rcases hStep b s hI with hNever | ⟨m, b', t, hStep, hI'⟩
        · rw [hNever n] at hRun
          cases hRun
        · have hSame : r = (.ok (.inl b'), t) := run_unique hRun hStep
          rw [loopFrom_continue (hRun.trans (congrArg some hSame))]
          exact ih b' t hI'
  exact fun n => hLoop n n b s hStart

end

end Program

end TcfAgent.Lib
