import Mathlib.Tactic

/-!
# Programs that check what they do

A program over a state either returns, or raises an exception, or does what no program may: an
access out of bounds, an assertion that fails. `Safely p Q E s` says that `p`, started in `s`, does
nothing of the last kind, that `Q` holds where it returns and that `E` holds of what it raises.

The rules take a program apart in the order in which it runs. `Agrees` is about two programs: they
return, raise and fail together.
-/

namespace TcfAgent.Lib

/-- Why a program does not return. -/
inductive Stop (ε : Type) where
  | raise (e : ε)
  | fault
deriving DecidableEq, Repr

abbrev Checked (σ ε α : Type) : Type := StateT σ (Except (Stop ε)) α

variable {σ ε α β : Type}

def raise (e : ε) : Checked σ ε α := fun _ => .error (.raise e)

/-- What no program may do. -/
def fault : Checked σ ε α := fun _ => .error .fault

/-- An assertion. -/
def ensure (p : Prop) [Decidable p] : Checked σ ε Unit := if p then pure () else fault

/-- The value that must be there. -/
def orFault : Option α → Checked σ ε α
  | some a => pure a
  | none => fault

/-- A call that can fail, without a state. -/
def orRaise : Except ε α → Checked σ ε α
  | .ok a => pure a
  | .error e => raise e

section

variable {p : Checked σ ε α} {q : α → Checked σ ε β} {s s' : σ} {a : α}

theorem bind_of_ok {t : σ} (h : p s = .ok (a, t)) : (p >>= q) s = q a t := by
  have hRun : (p >>= q) s = p s >>= fun r => q r.1 r.2 := rfl
  rw [hRun, h]
  rfl

theorem bind_get (q : σ → Checked σ ε β) : ((get : Checked σ ε σ) >>= q) s = q s s := rfl

theorem bind_of_error {e : Stop ε} (h : p s = .error e) : (p >>= q) s = .error e := by
  have hRun : (p >>= q) s = p s >>= fun r => q r.1 r.2 := rfl
  rw [hRun, h]
  rfl

theorem bind_eq_ok {b : β} {t : σ} :
    (p >>= q) s = .ok (b, t) ↔ ∃ a s', p s = .ok (a, s') ∧ q a s' = .ok (b, t) := by
  have hRun : (p >>= q) s = p s >>= fun r => q r.1 r.2 := rfl
  rw [hRun]
  cases p s with
  | error e => simp [Bind.bind, Except.bind]
  | ok r =>
    constructor
    · intro h
      exact ⟨r.1, r.2, rfl, h⟩
    · rintro ⟨a, s', hr, h⟩
      cases hr
      exact h

@[simp] theorem ensure_true {c : Prop} [Decidable c] (h : c) :
    (ensure c : Checked σ ε Unit) = pure () := if_pos h

end

/-- The program returns, and `Q` holds then. -/
def Gives (p : Checked σ ε α) (Q : α → σ → Prop) (s : σ) : Prop :=
  ∃ a s', p s = .ok (a, s') ∧ Q a s'

section

variable {p : Checked σ ε α} {q : α → Checked σ ε β} {Q R : α → σ → Prop} {s s' : σ} {a : α}

theorem Gives.mono (h : Gives p Q s) (hQ : ∀ a s', Q a s' → R a s') : Gives p R s := by
  obtain ⟨a, s', hp, h⟩ := h
  exact ⟨a, s', hp, hQ a s' h⟩

variable {R : β → σ → Prop}

theorem Gives.bind (hp : Gives p Q s)
    (hq : ∀ a s', Q a s' → Gives (q a) R s') : Gives (p >>= q) R s := by
  obtain ⟨a, s', hRun, h⟩ := hp
  obtain ⟨b, t, hNext, hR⟩ := hq a s' h
  exact ⟨b, t, (bind_of_ok hRun).trans hNext, hR⟩

theorem gives_bind_of_ok {t : σ} (hp : p s = .ok (a, t))
    (hq : Gives (q a) R t) : Gives (p >>= q) R s := by
  obtain ⟨b, u, hNext, hR⟩ := hq
  exact ⟨b, u, (bind_of_ok hp).trans hNext, hR⟩

/-- A value is read, which changes nothing. -/
theorem Gives.reads (hp : Gives p (fun b t => b = a ∧ t = s) s) (hq : Gives (q a) R s) :
    Gives (p >>= q) R s := by
  refine hp.bind ?_
  rintro _ _ ⟨rfl, rfl⟩
  exact hq

/-- A program has one result. -/
theorem Gives.of_ok (h : Gives p Q s) (hp : p s = .ok (a, s')) : Q a s' := by
  obtain ⟨b, t, hRun, hQ⟩ := h
  cases hRun.symm.trans hp
  exact hQ

end

/-- Where the program returns, the states before and after it are related. -/
def Relates (I : σ → σ → Prop) (p : Checked σ ε α) : Prop :=
  ∀ ⦃s a s'⦄, p s = .ok (a, s') → I s s'

section

variable {I : σ → σ → Prop} {p p' : Checked σ ε α} {q : α → Checked σ ε β}

theorem relates_pure (hRefl : ∀ s, I s s) (a : α) : Relates I (pure a : Checked σ ε α) := by
  intro s b s' h
  cases h
  exact hRefl s

theorem relates_raise (e : ε) : Relates I (raise e : Checked σ ε α) := by
  intro s b s' h
  cases h

theorem relates_get (hRefl : ∀ s, I s s) : Relates I (get : Checked σ ε σ) := by
  intro s b s' h
  cases h
  exact hRefl s

theorem Relates.bind (hTrans : ∀ s t u, I s t → I t u → I s u) (hp : Relates I p)
    (hq : ∀ a, Relates I (q a)) : Relates I (p >>= q) := by
  intro s b u h
  obtain ⟨a, t, hFirst, hSecond⟩ := bind_eq_ok.1 h
  exact hTrans s t u (hp hFirst) (hq a hSecond)

theorem relates_ite {c : Prop} [Decidable c] (hp : Relates I p) (hp' : Relates I p') :
    Relates I (if c then p else p') := by
  intro s a s' h
  split at h
  · exact hp h
  · exact hp' h

end

/-- Nothing goes wrong from this state on. -/
def Safely (p : Checked σ ε α) (Q : α → σ → Prop) (E : ε → Prop) (s : σ) : Prop :=
  match p s with
  | .ok (a, s') => Q a s'
  | .error (.raise e) => E e
  | .error .fault => False

section

variable {p : Checked σ ε α} {q : α → Checked σ ε β} {Q R : α → σ → Prop} {E : ε → Prop} {s : σ}

/-- What has been returned is known. -/
theorem Safely.with_result (h : Safely p Q E s) :
    Safely p (fun a s' => Q a s' ∧ p s = .ok (a, s')) E s := by
  unfold Safely at *
  cases hp : p s with
  | ok r =>
    rw [hp] at h
    exact ⟨h, rfl⟩
  | error e =>
    rw [hp] at h
    cases e <;> exact h

theorem Safely.mono (h : Safely p Q E s) (hQ : ∀ a s', Q a s' → R a s') : Safely p R E s := by
  unfold Safely at *
  cases hp : p s with
  | ok r =>
    rw [hp] at h
    exact hQ r.1 r.2 h
  | error e =>
    rw [hp] at h
    cases e <;> exact h

@[simp] theorem safely_pure {a : α} : Safely (pure a) Q E s ↔ Q a s := Iff.rfl

@[simp] theorem safely_raise {e : ε} : Safely (raise e) Q E s ↔ E e := Iff.rfl

@[simp] theorem safely_fault : Safely fault Q E s ↔ False := Iff.rfl

variable {R : β → σ → Prop}

theorem safely_bind :
    Safely (p >>= q) R E s ↔ Safely p (fun a => Safely (q a) R E) E s := by
  have hRun : (p >>= q) s = p s >>= fun r => q r.1 r.2 := rfl
  unfold Safely
  rw [hRun]
  cases p s with
  | ok r => exact Iff.rfl
  | error e => cases e <;> exact Iff.rfl

theorem Safely.bind (hp : Safely p Q E s)
    (hq : ∀ a s', Q a s' → Safely (q a) R E s') : Safely (p >>= q) R E s :=
  safely_bind.2 (hp.mono hq)

theorem safely_of_ok {a : α} {t : σ} (h : p s = .ok (a, t)) : Safely p Q E s ↔ Q a t := by
  unfold Safely
  rw [h]

theorem safely_bind_of_ok {a : α} {t : σ} (h : p s = .ok (a, t)) :
    Safely (p >>= q) R E s ↔ Safely (q a) R E t :=
  safely_bind.trans (safely_of_ok h)

@[simp] theorem safely_get {Q : σ → σ → Prop} : Safely get Q E s ↔ Q s s := Iff.rfl

@[simp] theorem safely_modify {Q : PUnit → σ → Prop} {f : σ → σ} :
    Safely (modify f) Q E s ↔ Q ⟨⟩ (f s) := Iff.rfl

theorem safely_ensure {c : Prop} [Decidable c] {Q : Unit → σ → Prop} :
    Safely (ensure c) Q E s ↔ c ∧ Q () s := by
  unfold ensure
  split
  · simp [*]
  · simp [*]

theorem safely_orFault {o : Option α} : Safely (orFault o) Q E s ↔ ∃ a, o = some a ∧ Q a s := by
  cases o <;> simp [orFault]

theorem safely_orRaise {r : Except ε α} :
    Safely (orRaise r) Q E s ↔ (∀ a, r = .ok a → Q a s) ∧ ∀ e, r = .error e → E e := by
  cases r <;> simp [orRaise]

theorem safely_ite {c : Prop} [Decidable c] {p' : Checked σ ε α} (hThen : c → Safely p Q E s)
    (hElse : ¬ c → Safely p' Q E s) : Safely (if c then p else p') Q E s := by
  split
  · exact hThen ‹_›
  · exact hElse ‹_›

end

/-- From the states with `P` the program goes to states with `Q`, whatever it returns. -/
def Leads (E : ε → Prop) (P : σ → Prop) (p : Checked σ ε α) (Q : σ → Prop) : Prop :=
  ∀ s, P s → Safely p (fun _ => Q) E s

section

variable {E : ε → Prop} {P Q R : σ → Prop} {p p' : Checked σ ε α} {q : α → Checked σ ε β}

theorem leads_pure {a : α} (h : ∀ s, P s → Q s) : Leads E P (pure a) Q := h

theorem leads_raise {e : ε} (h : E e) : Leads E P (raise e : Checked σ ε α) Q := fun _ _ => h

theorem leads_modify {f : σ → σ} (h : ∀ s, P s → Q (f s)) :
    Leads E P (modify f : Checked σ ε PUnit) Q := h

theorem Leads.bind (hp : Leads E P p Q) (hq : ∀ a, Leads E Q (q a) R) : Leads E P (p >>= q) R :=
  fun s h => (hp s h).bind fun a s' h' => hq a s' h'

theorem leads_get {q : σ → Checked σ ε β} (h : ∀ s, P s → Safely (q s) (fun _ => R) E s) :
    Leads E P (get >>= q) R := fun s hs => safely_bind.2 (h s hs)

theorem Leads.mono {P' Q' : σ → Prop} (h : Leads E P p Q) (hP : ∀ s, P' s → P s)
    (hQ : ∀ s, Q s → Q' s) : Leads E P' p Q' := fun s hs => (h s (hP s hs)).mono fun _ => hQ

theorem leads_ite {c : Prop} [Decidable c] (hThen : c → Leads E P p Q)
    (hElse : ¬ c → Leads E P p' Q) : Leads E P (if c then p else p') Q :=
  fun s hs => safely_ite (fun hc => hThen hc s hs) fun hc => hElse hc s hs

theorem leads_orRaise {r : Except ε α} (hE : ∀ e, r = .error e → E e) (h : ∀ s, P s → Q s) :
    Leads E P (orRaise r) Q := fun s hs => safely_orRaise.2 ⟨fun _ _ => h s hs, hE⟩

end

/-- Two programs do the same, and go to states that are related. -/
def Agrees (p q : Checked σ ε α) (R : σ → σ → Prop) (s t : σ) : Prop :=
  match p s, q t with
  | .ok (a, s'), .ok (b, t') => a = b ∧ R s' t'
  | .error e, .error e' => e = e'
  | _, _ => False

section

variable {p q : Checked σ ε α} {f g : α → Checked σ ε β} {R R' : σ → σ → Prop} {s t : σ}

theorem agrees_pure {a : α} (h : R s t) : Agrees (pure a : Checked σ ε α) (pure a) R s t :=
  ⟨rfl, h⟩

theorem agrees_ensure {c : Prop} [Decidable c] (h : c → R s t) :
    Agrees (ensure c : Checked σ ε Unit) (ensure c) R s t := by
  unfold ensure
  split
  · exact ⟨rfl, h ‹_›⟩
  · rfl

theorem agrees_orFault {o : Option α} (h : R s t) :
    Agrees (orFault o : Checked σ ε α) (orFault o) R s t := by
  cases o with
  | none => rfl
  | some a => exact ⟨rfl, h⟩

theorem agrees_modify {m : σ → σ} (h : R (m s) (m t)) :
    Agrees (modify m : Checked σ ε PUnit) (modify m) R s t := ⟨rfl, h⟩

theorem agrees_get {f g : σ → Checked σ ε β} (h : Agrees (f s) (g t) R s t) :
    Agrees (get >>= f) (get >>= g) R s t := h

theorem agrees_ite {c : Prop} [Decidable c] {p' q' : Checked σ ε α}
    (hThen : c → Agrees p q R s t) (hElse : ¬ c → Agrees p' q' R s t) :
    Agrees (if c then p else p') (if c then q else q') R s t := by
  split
  · exact hThen ‹_›
  · exact hElse ‹_›

theorem Agrees.bind (hp : Agrees p q R s t)
    (hf : ∀ a s' t', R s' t' → Agrees (f a) (g a) R' s' t') :
    Agrees (p >>= f) (q >>= g) R' s t := by
  unfold Agrees at hp
  rcases hFirst : p s with e | ⟨a, s'⟩ <;> rcases hSecond : q t with e' | ⟨b, t'⟩ <;>
    rw [hFirst, hSecond] at hp
  · unfold Agrees
    rw [bind_of_error hFirst, bind_of_error hSecond]
    exact hp
  · exact hp.elim
  · exact hp.elim
  · obtain ⟨rfl, hR⟩ := hp
    have hNext := hf a s' t' hR
    unfold Agrees at hNext ⊢
    rwa [bind_of_ok hFirst, bind_of_ok hSecond]

end

end TcfAgent.Lib
