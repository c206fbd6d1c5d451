import TcfAgent.Lib.Checked

/-!
# Attempts

Programs that change a state and can fail. What was changed before an exception stays changed, so
that whoever catches the exception goes on from there. This is the difference from `Checked`, whose
reasons to stop are used here too.

`Ends p Q E s` says that `p`, started in `s`, does nothing that no program may do, that `Q` holds
where it returns and that `E` holds where it raises an exception. `Keeps I p` is the case of one
invariant for all this.

Main results:

* `Ends.bind`, `Keeps.bind` — one program after another;
* `bind_eq_ok`       — what is known of the steps of a program that returns;
* `keeps_part`       — a program for a part of the state.
-/

namespace TcfAgent.Lib

/-- The result, and the state that is left. -/
def Attempt (σ ε α : Type) : Type := σ → Except (Stop ε) α × σ

namespace Attempt

variable {σ τ ε α β : Type}

instance : Monad (Attempt σ ε) where
  pure a := fun s => (.ok a, s)
  bind p q := fun s =>
    match p s with
    | (.ok a, s') => q a s'
    | (.error e, s') => (.error e, s')

instance : MonadStateOf σ (Attempt σ ε) where
  get := fun s => (.ok s, s)
  set s := fun _ => (.ok ⟨⟩, s)
  modifyGet f := fun s => (.ok (f s).1, (f s).2)

def raise (e : ε) : Attempt σ ε α := fun s => (.error (.raise e), s)

/-- What no program may do. -/
def fault : Attempt σ ε α := fun s => (.error .fault, s)

/-- An assertion. -/
def ensure (p : Prop) [Decidable p] : Attempt σ ε Unit := if p then pure () else fault

/-- The value that must be there. -/
def orFault : Option α → Attempt σ ε α
  | some a => pure a
  | none => fault

/-- A call that can fail, and does not see the state. -/
def orRaise : Except ε α → Attempt σ ε α
  | .ok a => pure a
  | .error e => raise e

/-- A program that sees only a part of the state. -/
def part (view : σ → τ) (put : τ → σ → σ) (p : Attempt τ ε α) : Attempt σ ε α := fun s =>
  ((p (view s)).1, put (p (view s)).2 s)

/-! ## Runs -/

section

variable {p p' : Attempt σ ε α} {q : α → Attempt σ ε β} {s s' t : σ} {a : α} {b : β} {e : Stop ε}

theorem pure_run (a : α) (s : σ) : (pure a : Attempt σ ε α) s = (.ok a, s) := rfl

theorem get_run (s : σ) : (get : Attempt σ ε σ) s = (.ok s, s) := rfl

theorem modify_run (f : σ → σ) (s : σ) : (modify f : Attempt σ ε PUnit) s = (.ok ⟨⟩, f s) := rfl

theorem bind_of_ok (h : p s = (.ok a, t)) : (p >>= q) s = q a t := by
  have hRun : (p >>= q) s = match p s with
      | (.ok a, s') => q a s'
      | (.error e, s') => (.error e, s') := rfl
  rw [hRun, h]

theorem bind_of_error (h : p s = (.error e, t)) : (p >>= q) s = (.error e, t) := by
  have hRun : (p >>= q) s = match p s with
      | (.ok a, s') => q a s'
      | (.error e, s') => (.error e, s') := rfl
  rw [hRun, h]

theorem bind_eq_ok :
    (p >>= q) s = (.ok b, t) ↔ ∃ a s', p s = (.ok a, s') ∧ q a s' = (.ok b, t) := by
  constructor
  · intro h
    rcases hFirst : p s with ⟨e | a, s'⟩
    · rw [bind_of_error hFirst] at h
      cases h
    · rw [bind_of_ok hFirst] at h
      exact ⟨a, s', rfl, h⟩
  · rintro ⟨a, s', hFirst, h⟩
    rwa [bind_of_ok hFirst]

theorem part_of_ok {view : σ → τ} {put : τ → σ → σ} {p : Attempt τ ε α} {u : τ}
    (h : p (view s) = (.ok a, u)) : part view put p s = (.ok a, put u s) := by
  rw [part, h]

theorem part_eq_ok {view : σ → τ} {put : τ → σ → σ} {p : Attempt τ ε α} :
    part view put p s = (.ok a, t) ↔ ∃ u, p (view s) = (.ok a, u) ∧ t = put u s := by
  constructor
  · intro h
    obtain ⟨hResult, hState⟩ := Prod.mk.inj h
    exact ⟨(p (view s)).2, Prod.ext hResult rfl, hState.symm⟩
  · rintro ⟨u, hRun, rfl⟩
    exact part_of_ok hRun

end

/-! ## How a program ends -/

/-- Nothing goes wrong from this state on. -/
def Ends (p : Attempt σ ε α) (Q : α → σ → Prop) (E : ε → σ → Prop) (s : σ) : Prop :=
  match p s with
  | (.ok a, s') => Q a s'
  | (.error (.raise e), s') => E e s'
  | (.error .fault, _) => False

/-- The invariant is kept, also where an exception is raised. -/
def Keeps (I : σ → Prop) (p : Attempt σ ε α) : Prop :=
  ∀ s, I s → Ends p (fun _ => I) (fun _ => I) s

section

variable {p p' : Attempt σ ε α} {q : α → Attempt σ ε β} {Q R : α → σ → Prop} {E : ε → σ → Prop}
  {I J : σ → Prop} {s t : σ} {a : α}

theorem Ends.imp {F : ε → σ → Prop} (h : Ends p Q E s) (hQ : ∀ a s', Q a s' → R a s')
    (hE : ∀ e s', E e s' → F e s') : Ends p R F s := by
  unfold Ends at *
  rcases hp : p s with ⟨e | a, s'⟩
  · rw [hp] at h
    cases e with
    | raise e => exact hE e s' h
    | fault => exact h
  · rw [hp] at h
    exact hQ a s' h

theorem Ends.mono (h : Ends p Q E s) (hQ : ∀ a s', Q a s' → R a s') : Ends p R E s :=
  h.imp hQ fun _ _ hE => hE

/-- What has been returned is known. -/
theorem Ends.with_result (h : Ends p Q E s) :
    Ends p (fun a s' => Q a s' ∧ p s = (.ok a, s')) E s := by
  unfold Ends at *
  rcases hp : p s with ⟨e | a, s'⟩
  · rw [hp] at h
    cases e <;> exact h
  · rw [hp] at h
    exact ⟨h, rfl⟩

theorem ends_of_ok (h : p s = (.ok a, t)) : Ends p Q E s ↔ Q a t := by
  unfold Ends
  rw [h]

theorem ends_of_raise {e : ε} (h : p s = (.error (.raise e), t)) : Ends p Q E s ↔ E e t := by
  unfold Ends
  rw [h]

theorem Ends.of_ok (h : Ends p Q E s) (hp : p s = (.ok a, t)) : Q a t := (ends_of_ok hp).1 h

theorem ends_pure (h : Q a s) : Ends (pure a : Attempt σ ε α) Q E s := h

theorem ends_raise {e : ε} (h : E e s) : Ends (raise e : Attempt σ ε α) Q E s := h

theorem ends_get {Q : σ → σ → Prop} (h : Q s s) : Ends (get : Attempt σ ε σ) Q E s := h

theorem ends_modify {Q : PUnit → σ → Prop} {f : σ → σ} (h : Q ⟨⟩ (f s)) :
    Ends (modify f : Attempt σ ε PUnit) Q E s := h

theorem ends_ensure {c : Prop} [Decidable c] {Q : Unit → σ → Prop} (hc : c) (h : Q () s) :
    Ends (ensure c : Attempt σ ε Unit) Q E s := by
  rw [ensure, if_pos hc]
  exact h

theorem ends_bind {R : β → σ → Prop} :
    Ends (p >>= q) R E s ↔ Ends p (fun a => Ends (q a) R E) E s := by
  unfold Ends
  rcases hp : p s with ⟨e | a, s'⟩
  · rw [bind_of_error hp]
    cases e <;> exact Iff.rfl
  · rw [bind_of_ok hp]

theorem Ends.bind {R : β → σ → Prop} (hp : Ends p Q E s)
    (hq : ∀ a s', Q a s' → Ends (q a) R E s') : Ends (p >>= q) R E s := ends_bind.2 (hp.mono hq)

theorem ends_ite {c : Prop} [Decidable c] (hThen : c → Ends p Q E s)
    (hElse : ¬ c → Ends p' Q E s) : Ends (if c then p else p') Q E s := by
  split
  · exact hThen ‹_›
  · exact hElse ‹_›

theorem ends_orRaise {r : Except ε α} (hQ : ∀ a, r = .ok a → Q a s)
    (hE : ∀ e, r = .error e → E e s) : Ends (orRaise r) Q E s := by
  cases r with
  | error e => exact hE e rfl
  | ok a => exact hQ a rfl

theorem keeps_pure (a : α) : Keeps I (pure a : Attempt σ ε α) := fun _ h => h

theorem keeps_raise (e : ε) : Keeps I (raise e : Attempt σ ε α) := fun _ h => h

theorem keeps_get : Keeps I (get : Attempt σ ε σ) := fun _ h => h

theorem keeps_modify {f : σ → σ} (h : ∀ s, I s → I (f s)) :
    Keeps I (modify f : Attempt σ ε PUnit) := h

theorem keeps_orRaise (r : Except ε α) : Keeps I (orRaise r) := fun _ h =>
  ends_orRaise (fun _ _ => h) fun _ _ => h

theorem Keeps.bind (hp : Keeps I p) (hq : ∀ a, Keeps I (q a)) : Keeps I (p >>= q) :=
  fun s h => (hp s h).bind fun a s' h' => hq a s' h'

theorem keeps_discard (hp : Keeps I p) : Keeps I (discard p) := hp.bind fun _ => keeps_pure _

/-- The program after looking at the state. -/
theorem keeps_get_bind {q : σ → Attempt σ ε β}
    (h : ∀ s, I s → Ends (q s) (fun _ => I) (fun _ => I) s) : Keeps I (get >>= q) :=
  fun s hs => ends_bind.2 (h s hs)

theorem keeps_ite {c : Prop} [Decidable c] (hThen : c → Keeps I p) (hElse : ¬ c → Keeps I p') :
    Keeps I (if c then p else p') := fun s hs =>
  ends_ite (fun hc => hThen hc s hs) fun hc => hElse hc s hs

theorem keeps_part {view : σ → τ} {put : τ → σ → σ} {p : Attempt τ ε α} {K : τ → Prop}
    (hp : Keeps K p) (hView : ∀ s, I s → K (view s)) (hPut : ∀ s u, I s → K u → I (put u s)) :
    Keeps I (part view put p) := by
  intro s hs
  have hPart := hp (view s) (hView s hs)
  unfold Ends at *
  rcases hRun : p (view s) with ⟨e | a, u⟩
  · rw [hRun] at hPart
    unfold part
    rw [hRun]
    cases e with
    | raise e => exact hPut s u hs hPart
    | fault => exact hPart
  · rw [hRun] at hPart
    rw [part_of_ok hRun]
    exact hPut s u hs hPart

end

end Attempt

end TcfAgent.Lib
