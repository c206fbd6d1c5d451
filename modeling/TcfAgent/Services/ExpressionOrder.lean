import TcfAgent.Services.ExpressionTrees
import TcfAgent.Lib.Fallible

/-!
# Trees in the order of the text

The parser meets the parts of a tree in the order of the text, so that a comma list between `?`
and `:` counts only when no operator has failed before it. Without one, the order makes no
difference.

Main results:

* `inOrder_constant` — the values of trees are constant;
* `eval_error`       — the one message of a tree is that of a division by zero;
* `inOrder_eq_eval`  — the order of the text gives the value of the tree, or its first error,
  unless a comma list between `?` and `:` comes up.
-/

namespace TcfAgent.Expressions

open TcfAgent.JsonText

/-! ## Parts in the order of the text -/

/-- An operand that is not wanted is rejected for its form only. -/
def skipped (e : Expr) (v : Value) : Except Message Value :=
  if e.hasCommaMiddle then .error .missingColon else .ok v

/-- The value of a tree whose parts come up in the order of the text, where a comma list between
`?` and `:` is an error at its first comma; and the value up to the first comma of a comma
list. -/
def Expr.inOrder (env : Env) : Expr → Except Message Value × Except Message Value
  | .literal l => (.ok (l.value env), .ok (l.value env))
  | .unary op a =>
    let value := do
      let v ← (a.inOrder env).1
      .ok (op.apply env v)
    (value, value)
  | .binary op a b =>
    let value := do
      let v ← (a.inOrder env).1
      match op with
      | .land => if isTrue v then (b.inOrder env).1 else skipped b v
      | .lor => if isTrue v then skipped b v else (b.inOrder env).1
      | op => do
        let x ← (b.inOrder env).1
        op.apply env v x
    (value, value)
  | .cond c a b =>
    let value := do
      let v ← (c.inOrder env).1
      if isTrue v then do
        let x ← (a.inOrder env).2
        if a.level = 12 then .error .missingColon else skipped b x
      else if a.level = 12 then .error .missingColon
      else do
        let _ ← skipped a v
        (b.inOrder env).1
    (value, value)
  | .comma a b => (do
      let _ ← (a.inOrder env).1
      (b.inOrder env).1, (a.inOrder env).2)

def Expr.size : Expr → Nat
  | .literal _ => 1
  | .unary _ a => a.size + 1
  | .binary _ a b => a.size + b.size + 1
  | .cond c a b => c.size + a.size + b.size + 1
  | .comma a b => a.size + b.size + 1

variable (e : Expr)

theorem Expr.size_pos : 0 < e.size := by
  cases e <;> simp only [Expr.size] <;> omega

theorem Literal.sy_val (l : Literal) : ∃ v flags, l.sy = .val v flags ∧ v.constant = true := by
  cases l with
  | decimal first digits suffix => exact ⟨_, _, rfl, rfl⟩
  | hex upper digits suffix => exact ⟨_, _, rfl, rfl⟩
  | octal digits suffix =>
    unfold Literal.sy scanZero
    dsimp only
    split_ifs <;> exact ⟨_, _, rfl, rfl⟩

/-! ## Operators -/

/-- Neither `&&` nor `||`. -/
def BinOp.IsStrict (op : BinOp) : Prop := op ≠ .land ∧ op ≠ .lor

theorem BinOp.level_lt (op : BinOp) : op.level < 10 := by cases op <;> decide

theorem level_le : e.level ≤ 12 := by
  cases e with
  | binary op a b =>
    have := op.level_lt
    simp only [Expr.level]
    omega
  | literal l | unary op a | cond c a b | comma a b => simp [Expr.level]

section

variable {env : Env} {op : BinOp}

theorem strict_inOrder (h : op.IsStrict) (a b : Expr) :
    ((Expr.binary op a b).inOrder env).1 = (do
      let v ← (a.inOrder env).1
      let x ← (b.inOrder env).1
      op.apply env v x) := by
  cases op with
  | land => exact absurd rfl h.1
  | lor => exact absurd rfl h.2
  | _ => rfl

theorem strict_eval (h : op.IsStrict) (a b : Expr) :
    eval env (.binary op a b) = (do
      let v ← eval env a
      let x ← eval env b
      op.apply env v x) := by
  cases op with
  | land => exact absurd rfl h.1
  | lor => exact absurd rfl h.2
  | _ => rfl

theorem strict_accepted (h : op.IsStrict) (a b : Expr) (whole : Bool) :
    (Expr.binary op a b).accepted env whole =
      (a.accepted env true && unlessFails (eval env a) fun _ => b.accepted env true) := by
  cases op with
  | land => exact absurd rfl h.1
  | lor => exact absurd rfl h.2
  | _ => rfl

/-- `&&` and `||` take their right operand when the left one is true, or is false. -/
theorem lazy_inOrder (env : Env) (h : ¬ op.IsStrict) :
    ∃ wanted : Bool, (op = if wanted then .land else .lor) ∧
      (∀ a b, ((Expr.binary op a b).inOrder env).1 = (do
        let v ← (a.inOrder env).1
        if isTrue v = wanted then (b.inOrder env).1 else skipped b v)) ∧
      (∀ a b, eval env (.binary op a b) = (do
        let v ← eval env a
        if isTrue v = wanted then eval env b else .ok v)) ∧
      ∀ a b whole, (Expr.binary op a b).accepted env whole =
        (a.accepted env true && unlessFails (eval env a) fun v =>
          if isTrue v = wanted then b.accepted env true else !b.hasCommaMiddle) := by
  have hSwap {α : Type} (v : Value) (x y : α) :
      (if isTrue v = true then x else y) = if isTrue v = false then y else x := by
    cases isTrue v <;> rfl
  cases op with
  | land => exact ⟨true, rfl, fun _ _ => rfl, fun _ _ => rfl, fun _ _ _ => rfl⟩
  | lor =>
    refine ⟨false, rfl, fun a b => ?_, fun a b => ?_, fun a b whole => ?_⟩
    · exact congrArg ((a.inOrder env).1 >>= ·) (funext fun v => hSwap v _ _)
    · exact congrArg (eval env a >>= ·) (funext fun v => hSwap v _ _)
    · exact congrArg (a.accepted env true && unlessFails (eval env a) ·)
        (funext fun v => hSwap v _ _)
  | _ => exact absurd ⟨by simp, by simp⟩ h

theorem skipped_eq (v : Value) :
    skipped e v = if e.hasCommaMiddle then .error .missingColon else .ok v := rfl

theorem skipped_ok {e : Expr} {v y : Value} (h : skipped e v = .ok y) : y = v := by
  rw [skipped_eq] at h
  split at h <;> cases h
  rfl

end

/-! ## First members -/

section

variable {env : Env}

theorem first_size : e.first.size ≤ e.size := by
  induction e with
  | comma a b iha _ =>
    simp only [Expr.first, Expr.size]
    omega
  | _ => exact Nat.le_refl _

theorem first_inOrder : (e.inOrder env).2 = (e.first.inOrder env).1 := by
  induction e with
  | comma a b iha _ => exact iha
  | _ => rfl

theorem first_eq {e : Expr} (h : e.level ≠ 12) : e.first = e := by
  cases e with
  | comma a b => exact absurd rfl h
  | _ => rfl

end

/-! ## Values -/

section

variable {env : Env}

theorem setBoolValue_constant (v : Value) (n : Bool) :
    (setBoolValue env v n).constant = v.constant := by
  unfold setBoolValue
  split
  · rfl
  · split <;> rfl

theorem unOp_constant (op : UnOp) (v : Value) : (op.apply env v).constant = v.constant := by
  cases op with
  | plus | complement => rfl
  | not => exact setBoolValue_constant v _
  | minus =>
    show (opMinus env .normal v).constant = v.constant
    unfold opMinus
    split <;> rfl

/-- What an operator gives is constant when its operands are, and otherwise there is a division by
zero, or an operation that C does not define. -/
theorem binOp_spec (op : BinOp) (v x : Value) :
    (∀ y, op.apply env v x = .ok y → y.constant = (v.constant && x.constant)) ∧
      ∀ m, op.apply env v x = .error m → m = .dividingByZero ∨ m = .undefined := by
  have hOne {f : Except Message Value} {y : Value} (hf : f = .ok y)
      (hy : y.constant = (v.constant && x.constant)) :
      (∀ y, f = .ok y → y.constant = (v.constant && x.constant)) ∧
        ∀ m, f = .error m → m = .dividingByZero ∨ m = .undefined := by
    subst hf
    refine ⟨fun z hz => ?_, fun m hm => ?_⟩
    · cases hz
      exact hy
    · cases hm
  have hFails {m : Message} (h : m = .dividingByZero ∨ m = .undefined) :
      (∀ y, (.error m : Except Message Value) = .ok y →
        y.constant = (v.constant && x.constant)) ∧
      ∀ k, (.error m : Except Message Value) = .error k → k = .dividingByZero ∨ k = .undefined := by
    refine ⟨fun y hy => ?_, fun k hk => ?_⟩
    · cases hy
    · cases hk
      exact h
  have hMap (r : Except Message Int) (hr : ∀ m, r = .error m → m = .undefined) (c : TypeClass) :
      (∀ y, r.map (setResult v x c) = .ok y → y.constant = (v.constant && x.constant)) ∧
      ∀ m, r.map (setResult v x c) = .error m → m = .dividingByZero ∨ m = .undefined := by
    cases r with
    | error m => exact hFails (.inr (hr m rfl))
    | ok n => exact hOne rfl rfl
  have hBits (g : Nat → Nat → Nat) (sy : Sy) :
      ∃ y, opBits g .normal sy v x = .ok y ∧ y.constant = (v.constant && x.constant) := by
    unfold opBits
    split <;> exact ⟨_, rfl, rfl⟩
  have hBitwise {f : Except Message Value} (h : ∃ y, f = .ok y ∧
      y.constant = (v.constant && x.constant)) := h.elim fun y hy => hOne hy.1 hy.2
  unfold BinOp.apply
  split
  · unfold opMultiplicative
    simp only [↓reduceIte]
    split
    · split
      · exact hFails (.inl rfl)
      · exact hOne rfl rfl
    · split
      · exact hFails (.inl rfl)
      · split
        · exact hFails (.inr rfl)
        · exact hOne rfl rfl
  · unfold opAdditive
    split <;> exact hOne rfl rfl
  · refine hMap _ (fun m hm => ?_) _
    split at hm
    all_goals
      unfold shift at hm
      split at hm
      · exact (Except.error.inj hm).symm
      · cases hm
  · exact hOne rfl (setBoolValue_constant _ _)
  · exact hOne rfl (setBoolValue_constant _ _)
  · exact hBitwise (hBits _ _)
  · exact hBitwise (hBits _ _)
  · exact hBitwise (hBits _ _)

theorem literal_constant (l : Literal) : (l.value env).constant = true := by
  obtain ⟨v, flags, hSy, hConstant⟩ := l.sy_val
  unfold Literal.value
  rw [hSy]
  show (literalValue env v flags).constant = true
  unfold literalValue
  dsimp only
  split
  · split <;> exact hConstant
  · exact hConstant

/-- All values are constant. -/
theorem inOrder_constants :
    (∀ v, (e.inOrder env).1 = .ok v → v.constant = true) ∧
      ∀ v, (e.inOrder env).2 = .ok v → v.constant = true := by
  have hSame {x : Except Message Value} (h : ∀ v, x = .ok v → v.constant = true) :
      (∀ v, x = .ok v → v.constant = true) ∧ ∀ v, x = .ok v → v.constant = true := ⟨h, h⟩
  induction e with
  | literal l =>
    refine hSame fun v hv => ?_
    cases hv
    exact literal_constant l
  | unary op a ih =>
    refine hSame fun v hv => ?_
    obtain ⟨w, hw, hEq⟩ := Lib.Fallible.bind_eq_ok hv
    cases hEq
    rw [unOp_constant]
    exact ih.1 w hw
  | binary op a b iha ihb =>
    refine hSame fun v hv => ?_
    obtain ⟨w, hw, hEq⟩ := Lib.Fallible.bind_eq_ok hv
    have hConstant := iha.1 w hw
    by_cases hStrict : op.IsStrict
    · rw [strict_inOrder hStrict, hw] at hv
      change (do
        let x ← (b.inOrder env).1
        op.apply env w x) = .ok v at hv
      obtain ⟨x, hx, hApply⟩ := Lib.Fallible.bind_eq_ok hv
      rw [(binOp_spec op w x).1 v hApply, hConstant, ihb.1 x hx]
      rfl
    · obtain ⟨wanted, -, hInOrder, -, -⟩ := lazy_inOrder env hStrict
      rw [hInOrder, hw] at hv
      change (if isTrue w = wanted then (b.inOrder env).1 else skipped b w) = .ok v at hv
      split at hv
      · exact ihb.1 v hv
      · rw [skipped_ok hv]
        exact hConstant
  | cond c a b ihc iha ihb =>
    refine hSame fun v hv => ?_
    obtain ⟨w, hw, hEq⟩ := Lib.Fallible.bind_eq_ok hv
    split at hEq
    · obtain ⟨x, hx, hEq⟩ := Lib.Fallible.bind_eq_ok hEq
      split at hEq
      · cases hEq
      · rw [skipped_ok hEq]
        exact iha.2 x hx
    · split at hEq
      · cases hEq
      · obtain ⟨_, -, hEq⟩ := Lib.Fallible.bind_eq_ok hEq
        exact ihb.1 v hEq
  | comma a b iha ihb =>
    refine ⟨fun v hv => ?_, iha.2⟩
    obtain ⟨_, -, hEq⟩ := Lib.Fallible.bind_eq_ok hv
    exact ihb.1 v hEq

theorem inOrder_constant {v : Value} (h : (e.inOrder env).1 = .ok v) :
    v.constant = true := (inOrder_constants e).1 v h

theorem eval_error {m : Message} (h : eval env e = .error m) :
    m = .dividingByZero ∨ m = .undefined := by
  induction e with
  | literal l => cases h
  | unary op a ih =>
    rcases Lib.Fallible.bind_eq_error h with ha | ⟨v, -, hv⟩
    · exact ih ha
    · cases hv
  | binary op a b iha ihb =>
    by_cases hStrict : op.IsStrict
    · rw [strict_eval hStrict] at h
      rcases Lib.Fallible.bind_eq_error h with ha | ⟨v, -, hv⟩
      · exact iha ha
      · rcases Lib.Fallible.bind_eq_error hv with hb | ⟨x, -, hx⟩
        · exact ihb hb
        · exact (binOp_spec op v x).2 m hx
    · obtain ⟨wanted, -, -, hEval, -⟩ := lazy_inOrder env hStrict
      rw [hEval] at h
      rcases Lib.Fallible.bind_eq_error h with ha | ⟨v, -, hv⟩
      · exact iha ha
      · split at hv
        · exact ihb hv
        · cases hv
  | cond c a b ihc iha ihb =>
    rcases Lib.Fallible.bind_eq_error h with hc | ⟨v, -, hv⟩
    · exact ihc hc
    · split at hv
      · exact iha hv
      · exact ihb hv
  | comma a b iha ihb =>
    rcases Lib.Fallible.bind_eq_error h with ha | ⟨v, -, hv⟩
    · exact iha ha
    · exact ihb hv

/-- The first member of a comma list fails as the list does. -/
theorem first_error {m : Message} (h : eval env e.first = .error m) :
    eval env e = .error m := by
  induction e with
  | comma a b iha _ => rw [eval, iha h]; rfl
  | _ => exact h

/-- The first of two steps meets a comma list between `?` and `:`, or fails, or the second step
takes its value. -/
theorem step_eq {p : Bool} {x : Except Message Value} {f g : Value → Except Message Value}
    {q : Value → Bool}
    (h : ∀ v, x = .ok v → f v = if q v then g v else .error .missingColon) :
    ((if p then x else .error .missingColon) >>= f) =
      if p && unlessFails x q then x >>= g else .error .missingColon := by
  cases p with
  | false => rfl
  | true =>
    cases x with
    | error m => rfl
    | ok v => exact h v rfl

theorem skipped_if (v : Value) :
    skipped e v = if !e.hasCommaMiddle then .ok v else .error .missingColon := by
  rw [skipped_eq]
  cases e.hasCommaMiddle <;> rfl

theorem accepted_whole {e : Expr} (h : e.level ≠ 12) (whole : Bool) :
    e.accepted env whole = e.accepted env true := by
  cases e with
  | comma a b => exact absurd rfl h
  | binary op a b => cases op <;> rfl
  | literal l | unary op a | cond c a b => rfl

/-- A comma list between `?` and `:` that comes up is the first error, and without one the order
of the text makes no difference. -/
theorem inOrder_eq_eval :
    (e.inOrder env).1 = (if e.accepted env true then eval env e else .error .missingColon) ∧
      (e.inOrder env).2 =
        if e.accepted env false then eval env e.first else .error .missingColon := by
  have hBoth {e : Expr} (hLevel : e.level ≠ 12) (h : (e.inOrder env).1 =
      if e.accepted env true then eval env e else .error .missingColon) :
      (e.inOrder env).1 = (if e.accepted env true then eval env e else .error .missingColon) ∧
        (e.inOrder env).2 =
          if e.accepted env false then eval env e.first else .error .missingColon := by
    rw [first_inOrder, first_eq hLevel, accepted_whole hLevel false]
    exact ⟨h, h⟩
  induction e with
  | literal l => exact hBoth (by simp [Expr.level]) rfl
  | unary op a ih =>
    refine hBoth (by simp [Expr.level]) ?_
    show ((a.inOrder env).1 >>= fun v => .ok (op.apply env v)) =
      if a.accepted env true then eval env a >>= fun v => .ok (op.apply env v)
      else .error .missingColon
    rw [ih.1]
    split <;> rfl
  | binary op a b iha ihb =>
    have hLevel : (Expr.binary op a b).level ≠ 12 := by
      have := op.level_lt
      simp only [Expr.level]
      omega
    refine hBoth hLevel ?_
    by_cases hStrict : op.IsStrict
    · rw [strict_inOrder hStrict, strict_eval hStrict, strict_accepted hStrict, iha.1]
      refine step_eq fun v _ => ?_
      rw [ihb.1]
      split <;> rfl
    · obtain ⟨wanted, -, hInOrder, hEval, hAccepted⟩ := lazy_inOrder env hStrict
      rw [hInOrder, hEval, hAccepted, iha.1]
      refine step_eq fun v _ => ?_
      by_cases hWanted : isTrue v = wanted
      · simp only [hWanted, ↓reduceIte, ihb.1]
      · simp only [hWanted, ↓reduceIte, skipped_if]
  | cond c a b ihc iha ihb =>
    refine hBoth (by simp [Expr.level]) ?_
    show ((c.inOrder env).1 >>= _) = _
    rw [ihc.1]
    refine step_eq fun v _ => ?_
    by_cases hTrue : isTrue v = true
    -- the branch starts with the first expression of its comma list
    · have hFirst : (eval env a.first >>= fun _ => eval env a) = eval env a := by
        cases hValue : eval env a.first with
        | error m => exact (first_error a hValue).symm
        | ok x => rfl
      simp only [hTrue, ↓reduceIte, iha.2]
      refine (step_eq (g := fun _ => eval env a) fun x hx => ?_).trans (by rw [hFirst])
      by_cases hLevel : a.level = 12
      · simp [hLevel]
      · rw [first_eq hLevel] at hx
        simp [hLevel, skipped_if, hx]
    · simp only [hTrue, Bool.false_eq_true, ↓reduceIte, ihb.1]
      by_cases hLevel : a.level = 12
      · simp [hLevel]
      · simp only [hLevel, ↓reduceIte, skipped_if]
        cases a.hasCommaMiddle with
        | true => simp [bind, Except.bind]
        | false => simp [bind, Except.bind, hLevel]
  | comma a b iha ihb =>
    refine ⟨?_, iha.2⟩
    simp only [Expr.inOrder, Expr.accepted, iha.1]
    exact step_eq fun _ _ => ihb.1

end

end TcfAgent.Expressions
