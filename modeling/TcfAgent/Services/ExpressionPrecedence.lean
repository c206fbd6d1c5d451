import TcfAgent.Services.ExpressionOrder
import TcfAgent.Services.ExpressionScan

/-!
# Expressions are parsed by precedence and associativity

The parser of `services/expressions.c`, on a writing of a tree, gives what the parts of the tree
give in the order of the text. A level of the grammar that has read the tokens of its left operand
stands in its loop, whatever operator comes next; this is what carries the induction over
operators that associate to the left.

Main results:

* `Open.binary`            — an operator with its operands, in the loop of its level;
* `parsed`                 — every level reads a tree with the parentheses that it needs;
* `evaluateExpression_eq`  — the result of a writing of a tree;
* `expressions_evaluated`  — it is the value of the tree, or its first error, exactly when no comma
  list between `?` and `:` comes up before an operator fails and no operation is one that C leaves
  undefined. A literal with the prefix `0X` is not read as one.
-/

namespace TcfAgent.Expressions

open TcfAgent.JsonText

/-! ## Levels as a table -/

section

variable (env : Env)

/-- The levels of operators with two operands, by their number. -/
def table : Nat → Level
  | 0 => multiplicative
  | 1 => additive
  | 2 => shifts
  | 3 => relational env
  | 4 => equality env
  | 5 => bitAnd
  | 6 => exclusiveOr
  | 7 => inclusiveOr
  | 8 => logicalAnd
  | _ => logicalOr

/-- `pm_expression`, and the levels after it. -/
def parserAt (fuel : Nat) : Nat → Parser
  | 0 => pmExpression env (unaryExpression env fuel) fuel
  | k + 1 => levelExpression env (table env k) (parserAt fuel k) fuel

theorem isOp_level (op : BinOp) {k : Nat} (hk : k < 10) :
    (table env k).isOp op.sy = decide (op.level = k) := by
  have hTen : k = 0 ∨ k = 1 ∨ k = 2 ∨ k = 3 ∨ k = 4 ∨ k = 5 ∨ k = 6 ∨ k = 7 ∨ k = 8 ∨ k = 9 := by
    omega
  rcases hTen with rfl | rfl | rfl | rfl | rfl | rfl | rfl | rfl | rfl | rfl
  all_goals cases op <;> rfl

end

/-- The symbol that comes next. -/
def headSy : Option Token → Sy
  | none => .eof
  | some t => t.sy

/-- What can follow an operand of the level: no operator of the level or of one before it. -/
def stops (k : Nat) : Option Token → Bool
  | none | some .right | some .colon => true
  | some .comma => k ≤ 11
  | some .quest => k ≤ 10
  | some (.binary op) => k ≤ op.level
  | _ => false

section

variable {env : Env} {s : State} {rest : List Token} {k j : Nat}

theorem At.headSy (h : At s rest) : s.sy = headSy rest.head? := by
  cases rest with
  | nil => exact h
  | cons t rest => exact h.1

variable {t : Option Token}

theorem stops_mono (h : stops k t = true) (hj : j ≤ k) : stops j t = true := by
  cases t with
  | none => rfl
  | some t =>
    cases t with
    | right | colon => rfl
    | literal _ | complement | not | left => cases h
    | comma | quest | binary _ =>
      simp only [stops, decide_eq_true_eq] at h ⊢
      omega

theorem stops_isOp (h : stops k t = true) (hj : j < k) (hk : j < 10) :
    (table env j).isOp (headSy t) = false := by
  have hTen : j = 0 ∨ j = 1 ∨ j = 2 ∨ j = 3 ∨ j = 4 ∨ j = 5 ∨ j = 6 ∨ j = 7 ∨ j = 8 ∨ j = 9 := by
    omega
  cases t with
  | none => rcases hTen with rfl | rfl | rfl | rfl | rfl | rfl | rfl | rfl | rfl | rfl <;> rfl
  | some t =>
    cases t with
    | literal _ | complement | not | left => cases h
    | binary op =>
      simp only [stops, decide_eq_true_eq] at h
      show (table env j).isOp op.sy = false
      rw [isOp_level env op hk]
      exact decide_eq_false (by omega)
    | right | colon | comma | quest =>
      rcases hTen with rfl | rfl | rfl | rfl | rfl | rfl | rfl | rfl | rfl | rfl <;> rfl

theorem stops_postfix (h : stops k t = true) :
    isPostfix (headSy t) = false ∧ headSy t ≠ .pmD ∧ headSy t ≠ .pmR := by
  cases t with
  | none => decide
  | some t =>
    cases t with
    | literal _ | complement | not | left => cases h
    | binary op => cases op <;> decide
    | right | colon | comma | quest => decide

theorem stops_comma (h : stops 12 t = true) : headSy t ≠ .char 44 := by
  cases t with
  | none => decide
  | some t =>
    cases t with
    | literal _ | complement | not | left | comma | quest => cases h
    | binary op => cases op <;> cases h
    | right | colon => decide

theorem stops_quest (h : stops 11 t = true) : headSy t ≠ .char 63 := by
  cases t with
  | none => decide
  | some t =>
    cases t with
    | literal _ | complement | not | left | quest => cases h
    | binary op => cases op <;> cases h
    | right | colon | comma => decide

end

/-! ## What a parser gives -/

/-- The parser stops before `rest` with the value, if one is wanted, or fails with the message. -/
def Gives (r : Except Message (Option Value)) (rest : List Token)
    (p : Except Error (Value × State)) : Prop :=
  match r with
  | .ok o => ∃ v s, p = .ok (v, s) ∧ At s rest ∧ ∀ w ∈ o, v = w
  | .error m => ∃ t, p = .error ⟨m, t⟩

/-- What is expected of the parser in the modes in which the trees are read. -/
def Expr.result (env : Env) (mode : Mode) (e : Expr) : Except Message (Option Value) :=
  if mode = .skip then if e.hasCommaMiddle then .error .missingColon else .ok none
  else (e.inOrder env).1.map some

section

variable {r r' : Except Message (Option Value)} {rest rest' : List Token}
  {p : Except Error (Value × State)} {k : Value × State → Except Error (Value × State)}

theorem Gives.bind (h : Gives r rest p) (hError : ∀ m, r = .error m → r' = .error m)
    (hOk : ∀ o v s, r = .ok o → (∀ w ∈ o, v = w) → At s rest → Gives r' rest' (k (v, s))) :
    Gives r' rest' (p >>= k) := by
  cases r with
  | error m =>
    obtain ⟨t, rfl⟩ := h
    rw [hError m rfl]
    exact ⟨t, rfl⟩
  | ok o =>
    obtain ⟨v, s, rfl, hAt, hv⟩ := h
    exact hOk o v s rfl hv hAt

theorem Gives.ok {v : Value} {s : State} {o : Option Value} (hAt : At s rest)
    (hv : ∀ w ∈ o, v = w) : Gives (.ok o) rest (.ok (v, s)) := ⟨v, s, rfl, hAt, hv⟩

end

/-! ## Levels, with and without what follows in their loops -/

section

variable (env : Env) (fuel : Nat) (k : Nat) (mode : Mode) (ts : List Token)
  (r : Except Message (Option Value))

/-- The parser reads the tokens, when what follows can follow at the level. -/
def Reads (p : Parser) : Prop :=
  ∀ rest s, stops k rest.head? = true → At s (ts ++ rest) → Gives r rest (p mode s)

/-- The level reads the tokens as the left operand of what follows: it stands in its loop, with
the value, and has used `n` of the fuel. -/
def Open (n : Nat) : Prop :=
  ∀ rest s, stops k rest.head? = true → At s (ts ++ rest) →
    match r with
    | .ok o => ∃ v s' m, At s' rest ∧ (∀ w ∈ o, v = w) ∧ fuel ≤ m + n ∧
      parserAt env fuel (k + 1) mode s =
        levelLoop env (table env k) (parserAt env fuel k) m v mode s'
    | .error m => ∃ t, parserAt env fuel (k + 1) mode s = .error ⟨m, t⟩

end

section

variable {env : Env} {fuel k n : Nat} {mode : Mode} {ts : List Token}
  {r : Except Message (Option Value)}

theorem parserAt_succ (s : State) :
    parserAt env fuel (k + 1) mode s = (parserAt env fuel k mode s >>= fun (v, s) =>
      levelLoop env (table env k) (parserAt env fuel k) fuel v mode s) := rfl

theorem Reads.open (h : Reads k mode ts r (parserAt env fuel k)) : Open env fuel k mode ts r 0 := by
  intro rest s hStops hAt
  have hGives := h rest s hStops hAt
  rw [parserAt_succ]
  cases r with
  | error m =>
    obtain ⟨t, hp⟩ := hGives
    exact ⟨t, by rw [hp]; rfl⟩
  | ok o =>
    obtain ⟨v, s', hp, hAt', hv⟩ := hGives
    exact ⟨v, s', fuel, hAt', hv, by omega, by rw [hp]; rfl⟩

theorem levelLoop_stop {l : Level} {operand : Parser} {m : Nat} {v : Value} {s : State}
    (hm : 0 < m) (h : l.isOp s.sy = false) : levelLoop env l operand m v mode s = .ok (v, s) := by
  obtain ⟨m, rfl⟩ : ∃ j, m = j + 1 := ⟨m - 1, by omega⟩
  simp only [levelLoop, h, Bool.false_eq_true, ↓reduceIte]

theorem levelLoop_step {l : Level} {operand : Parser} {m : Nat} {v : Value} {s s' : State}
    (hOp : l.isOp s.sy = true) (hNext : s.next env = .ok s') :
    levelLoop env l operand (m + 1) v mode s =
      (operand (l.rightMode mode v) s' >>= fun (x, u) =>
        match l.apply mode s.sy v x with
        | .ok v => levelLoop env l operand m v mode u
        | .error message => u.fail message) := by
  simp only [levelLoop, hOp, ↓reduceIte, hNext]
  rfl

theorem Open.closed (h : Open env fuel k mode ts r n) (hk : k < 10) (hn : n < fuel) :
    Reads (k + 1) mode ts r (parserAt env fuel (k + 1)) := by
  intro rest s hStops hAt
  have hOpen := h rest s (stops_mono hStops (Nat.le_succ k)) hAt
  cases r with
  | error m => exact hOpen
  | ok o =>
    obtain ⟨v, s', m, hAt', hv, hm, hEq⟩ := hOpen
    have hSy : (table env k).isOp s'.sy = false := by
      rw [hAt'.headSy]
      exact stops_isOp hStops (Nat.lt_succ_self k) hk
    rw [hEq, levelLoop_stop (by omega) hSy]
    exact Gives.ok hAt' hv

/-- What an operand of a level is, it is for the levels after it. -/
theorem Reads.mono (h : Reads k mode ts r (parserAt env fuel k)) {j : Nat} (hkj : k ≤ j)
    (hj : j ≤ 10)
    (hFuel : 0 < fuel) : Reads j mode ts r (parserAt env fuel j) := by
  induction hkj with
  | refl => exact h
  | step _ ih => exact (ih (by omega)).open.closed (by omega) hFuel

/-- An operator with its operands, in the loop of its level. -/
theorem Open.binary {op : BinOp} {us : List Token} {ra : Except Message (Option Value)}
    (ha : Open env fuel op.level mode ts ra n) (hn : n < fuel)
    (hError : ∀ m, ra = .error m → r = .error m)
    (hb : ∀ o v, ra = .ok o → (∀ w ∈ o, v = w) →
      ∃ rb, Reads op.level ((table env op.level).rightMode mode v) us rb
        (parserAt env fuel op.level) ∧
        (∀ m, rb = .error m → r = .error m) ∧
        ∀ o' x, rb = .ok o' → (∀ w ∈ o', x = w) →
          match (table env op.level).apply mode op.sy v x with
          | .ok y => ∃ o'', r = .ok o'' ∧ ∀ w ∈ o'', y = w
          | .error m => r = .error m) :
    Open env fuel op.level mode (ts ++ .binary op :: us) r (n + 1) := by
  intro rest s hStops hAt
  rw [List.append_assoc, List.cons_append] at hAt
  have hOpen := ha (.binary op :: (us ++ rest)) s (by simp [stops]) hAt
  cases ra with
  | error m =>
    rw [hError m rfl]
    exact hOpen
  | ok o =>
    obtain ⟨v, s', m, hAt', hv, hm, hEq⟩ := hOpen
    obtain ⟨rb, hRight, hErrorB, hApply⟩ := hb o v rfl hv
    obtain ⟨m, rfl⟩ : ∃ j, m = j + 1 := ⟨m - 1, by omega⟩
    obtain ⟨s'', hNext, hAt''⟩ : ∃ s'', s'.next env = .ok s'' ∧ At s'' (us ++ rest) := hAt'.next
    have hSy : s'.sy = op.sy := hAt'.sy
    have hOp : (table env op.level).isOp op.sy = true := by
      rw [isOp_level env op op.level_lt]
      exact decide_eq_true rfl
    have hGives := hRight rest s'' hStops hAt''
    rw [hEq, levelLoop_step (hSy ▸ hOp) hNext, hSy]
    cases rb with
    | error m' =>
      obtain ⟨t, hp⟩ := hGives
      rw [hErrorB m' rfl, hp]
      exact ⟨t, rfl⟩
    | ok o' =>
      obtain ⟨x, u, hp, hAtU, hx⟩ := hGives
      have hResult := hApply o' x rfl hx
      cases hValue : (table env op.level).apply mode op.sy v x with
      | error m' =>
        simp only [hValue] at hResult
        rw [hResult, hp]
        refine ⟨u.start, ?_⟩
        show (match (table env op.level).apply mode op.sy v x with
          | .ok v => levelLoop env _ _ m v mode u
          | .error message => u.fail message) = _
        rw [hValue]
        rfl
      | ok y =>
        simp only [hValue] at hResult
        obtain ⟨o'', rfl, hy⟩ := hResult
        refine ⟨y, u, m, hAtU, hy, by omega, ?_⟩
        rw [hp]
        show (match (table env op.level).apply mode op.sy v x with
          | .ok v => levelLoop env _ _ m v mode u
          | .error message => u.fail message) = _
        rw [hValue]

end

/-! ## Operands -/

/-- No token is a name. -/
theorem headSy_ne (t : Option Token) (x : Text) (n : Nat) :
    headSy t ≠ .name x ∧ headSy t ≠ .other n := by
  cases t with
  | none => exact ⟨by simp [headSy], by simp [headSy]⟩
  | some t =>
    cases t with
    | literal l =>
      obtain ⟨v, flags, hSy, -⟩ := l.sy_val
      simp [headSy, Token.sy, hSy]
    | binary op => cases op <;> simp [headSy, Token.sy, BinOp.sy]
    | complement | not | left | right | quest | colon | comma => simp [headSy, Token.sy]

section

variable {env : Env} {fuel : Nat} {mode : Mode} {ts : List Token}
  {r : Except Message (Option Value)}

/-- Nothing goes on with an operand at its end. -/
theorem Reads.unary (h : Reads 0 mode ts r (unaryExpression env fuel)) (hFuel : 0 < fuel) :
    Reads 0 mode ts r (parserAt env fuel 0) := by
  intro rest s hStops hAt
  obtain ⟨fuel, rfl⟩ : ∃ j, fuel = j + 1 := ⟨fuel - 1, by omega⟩
  refine (h rest s hStops hAt).bind (fun _ h => h) fun o v s' hr hv hAt' => ?_
  obtain ⟨-, hD, hR⟩ := stops_postfix hStops
  rw [← hAt'.headSy] at hD hR
  simp only [pmLoop, hD, hR, or_self, ↓reduceIte]
  rw [hr]
  exact Gives.ok hAt' hv

theorem postfix_reads {expression : Parser} (hFuel : 0 < fuel)
    (h : Reads 0 mode ts r (primaryExpression env expression fuel)) :
    Reads 0 mode ts r (postfixExpression env expression fuel) := by
  intro rest s hStops hAt
  obtain ⟨fuel, rfl⟩ : ∃ j, fuel = j + 1 := ⟨fuel - 1, by omega⟩
  refine (h rest s hStops hAt).bind (fun _ h => h) fun o v s' hr hv hAt' => ?_
  obtain ⟨hPostfix, -⟩ := stops_postfix hStops
  rw [← hAt'.headSy] at hPostfix
  simp only [postfixLoop, hPostfix, Bool.false_eq_true, ↓reduceIte]
  rw [hr]
  exact Gives.ok hAt' hv

theorem literal_reads (env : Env) (mode : Mode) (l : Literal) (hFuel : 0 < fuel) :
    Reads 0 mode [.literal l] (.ok (some (l.value env))) (unaryExpression env (fuel + 1)) := by
  intro rest s hStops hAt
  obtain ⟨v, flags, hLiteral, -⟩ := l.sy_val
  have hSy : s.sy = .val v flags := hAt.sy.trans hLiteral
  have hUnary : unaryExpression env (fuel + 1) mode s =
      postfixExpression env (conditionalExpression env fuel) fuel mode s := by
    simp only [unaryExpression, hSy]
  rw [hUnary]
  refine postfix_reads hFuel (fun rest s hStops hAt => ?_) rest s hStops hAt
  have hSy : s.sy = .val v flags := hAt.sy.trans hLiteral
  obtain ⟨s', hNext, hAt'⟩ : ∃ s', s.next env = .ok s' ∧ At s' rest := hAt.next
  have hPrimary : primaryExpression env (conditionalExpression env fuel) fuel mode s =
      .ok (literalValue env v flags, s') := by
    unfold primaryExpression
    rw [hSy]
    show (s.next env >>= _) = _
    rw [hNext]
    rfl
  have hValue : l.value env = literalValue env v flags := by
    unfold Literal.value
    rw [hLiteral]
  rw [hPrimary, hValue]
  refine Gives.ok hAt' fun w hw => ?_
  cases hw
  rfl

@[simp] theorem ok_bind {α β : Type} (a : α) (f : α → Except Error β) :
    (Except.ok a >>= f) = f a := rfl

theorem unary_paren {s inner s' : State} {t : Option Token} (hSy : s.sy = .char 40)
    (hNext : s.next env = .ok inner) (hInner : inner.sy = headSy t)
    (hAgain : nextSy env s.start = .ok s') :
    unaryExpression env (fuel + 1) mode s =
      postfixExpression env (conditionalExpression env fuel) fuel mode s' := by
  simp only [unaryExpression, hSy, hNext]
  repeat rw [if_neg (by decide)]
  rw [if_pos trivial, ok_bind]
  split
  · rename_i x hName
    exact absurd (hInner.symm.trans hName) (headSy_ne t x 0).1
  · rename_i n hOther
    exact absurd (hInner.symm.trans hOther) (headSy_ne t [] n).2
  · rw [hAgain]
    rfl

/-- What stands in parentheses. -/
theorem paren_reads (h : Reads 12 mode ts r
      (commaList env (conditionalExpression env fuel) fuel)) (hFuel : 0 < fuel) :
    Reads 0 mode (.left :: (ts ++ [.right])) r (unaryExpression env (fuel + 1)) := by
  intro rest s hStops hAt
  have hUnary : ∃ s', unaryExpression env (fuel + 1) mode s =
      postfixExpression env (conditionalExpression env fuel) fuel mode s' ∧
      At s' (.left :: (ts ++ [.right]) ++ rest) := by
    obtain ⟨inner, hNext, hInner⟩ :
      ∃ s', s.next env = .ok s' ∧ At s' (ts ++ [.right] ++ rest) := hAt.next
    obtain ⟨s', hAgain, hAt'⟩ := hAt.again env
    refine ⟨s', ?_, hAt'⟩
    have hSy : s.sy = .char 40 := hAt.sy
    exact unary_paren hSy hNext hInner.headSy hAgain
  obtain ⟨s', hEq, hAt'⟩ := hUnary
  rw [hEq]
  refine postfix_reads hFuel (fun rest s hStops hAt => ?_) rest s' hStops hAt'
  obtain ⟨s₁, hNext, hAt₁⟩ :
    ∃ s', s.next env = .ok s' ∧ At s' (ts ++ [.right] ++ rest) := hAt.next
  have hSy : s.sy = .char 40 := hAt.sy
  have hPrimary : primaryExpression env (conditionalExpression env fuel) fuel mode s =
      (commaList env (conditionalExpression env fuel) fuel mode s₁ >>= fun (v, s) =>
        if s.sy ≠ .char 41 then s.fail .missingParen
        else s.next env >>= fun s => .ok (v, s)) := by
    unfold primaryExpression
    rw [hSy]
    show (s.next env >>= _) = _
    rw [hNext]
    rfl
  rw [hPrimary]
  rw [List.append_assoc] at hAt₁
  refine (h (.right :: rest) s₁ rfl hAt₁).bind (fun _ h => h) fun o v s₂ hr hv hAt₂ => ?_
  obtain ⟨s₃, hNext₃, hAt₃⟩ : ∃ s', s₂.next env = .ok s' ∧ At s' rest := hAt₂.next
  have hRight : s₂.sy = .char 41 := hAt₂.sy
  simp only [hRight, ne_eq, not_true_eq_false, ↓reduceIte, hNext₃]
  rw [hr]
  exact Gives.ok hAt₃ hv

/-- What an operator with one operand makes of it. -/
def UnOp.applyIn (env : Env) (mode : Mode) (v : Value) : UnOp → Value
  | .plus => v
  | .minus => applyUnary (opMinus env) mode v
  | .complement => applyUnary opComplement mode v
  | .not => applyUnary (opNot env) mode v

theorem unary_op {op : UnOp} {s s' : State} {t : Option Token} (hSy : s.sy = op.token.sy)
    (hNext : s.next env = .ok s') (hAfter : s'.sy = headSy t) :
    unaryExpression env (fuel + 1) mode s =
      (unaryExpression env fuel mode s' >>= fun (v, s) => .ok (op.applyIn env mode v, s)) := by
  cases op with
  | plus =>
    have hChar : s.sy = .char 43 := hSy
    simp only [unaryExpression, hChar, hNext]
    cases hRun : unaryExpression env fuel mode s' with
    | error e => simp [hRun, bind, Except.bind]
    | ok r => simp [hRun, bind, Except.bind, UnOp.applyIn]
  | minus =>
    have hChar : s.sy = .char 45 := hSy
    simp only [unaryExpression, hChar, hNext]
    rfl
  | not =>
    have hChar : s.sy = .char 33 := hSy
    simp only [unaryExpression, hChar, hNext]
    rfl
  | complement =>
    have hChar : s.sy = .char 126 := hSy
    simp only [unaryExpression, hChar, hNext, ok_bind]
    repeat rw [if_neg (by decide)]
    rw [if_pos trivial]
    split
    · rename_i x hName
      exact absurd (hAfter.symm.trans hName) (headSy_ne t x 0).1
    · rfl

theorem unary_reads {op : UnOp} {ra : Except Message (Option Value)}
    (h : Reads 0 mode ts ra (unaryExpression env fuel))
    (hError : ∀ m, ra = .error m → r = .error m)
    (hOk : ∀ o v, ra = .ok o → (∀ w ∈ o, v = w) →
      ∃ o', r = .ok o' ∧ ∀ w ∈ o', op.applyIn env mode v = w) :
    Reads 0 mode (op.token :: ts) r (unaryExpression env (fuel + 1)) := by
  intro rest s hStops hAt
  obtain ⟨s', hNext, hAt'⟩ : ∃ s', s.next env = .ok s' ∧ At s' (ts ++ rest) := hAt.next
  rw [unary_op hAt.sy hNext hAt'.headSy]
  refine (h rest s' hStops hAt').bind hError fun o v s₂ hr hv hAt₂ => ?_
  obtain ⟨o', rfl, hw⟩ := hOk o v hr hv
  exact Gives.ok hAt₂ hw

/-! ## Comma lists and conditionals -/

/-- The list goes on after a comma. -/
theorem commaList_succ {expression : Parser} {n : Nat} (s : State) :
    commaList env expression (n + 1) mode s = (expression mode s >>= fun (v, s) =>
      if s.sy = .char 44 then s.next env >>= fun s => commaList env expression n mode s
      else .ok (v, s)) := rfl

/-- The list reads the tokens and stands behind them, where a comma can come. -/
def ListOpen (env : Env) (fuel : Nat) (mode : Mode) (ts : List Token)
    (r : Except Message (Option Value)) (n : Nat) : Prop :=
  ∀ rest s, stops 11 rest.head? = true → At s (ts ++ rest) →
    match r with
    | .ok o => ∃ v s' m, At s' rest ∧ (∀ w ∈ o, v = w) ∧ fuel ≤ m + n ∧
      commaList env (conditionalExpression env fuel) fuel mode s =
        if s'.sy = .char 44 then
          s'.next env >>= fun s => commaList env (conditionalExpression env fuel) m mode s
        else .ok (v, s')
    | .error m =>
      ∃ t, commaList env (conditionalExpression env fuel) fuel mode s = .error ⟨m, t⟩

theorem Reads.listOpen (h : Reads 11 mode ts r (conditionalExpression env fuel))
    (hFuel : 0 < fuel) : ListOpen env fuel mode ts r 1 := by
  intro rest s hStops hAt
  have hGives := h rest s hStops hAt
  obtain ⟨m, hm⟩ : ∃ m, fuel = m + 1 := ⟨fuel - 1, by omega⟩
  have hList : commaList env (conditionalExpression env fuel) fuel mode s =
      (conditionalExpression env fuel mode s >>= fun (v, s) =>
        if s.sy = .char 44 then
          s.next env >>= fun s => commaList env (conditionalExpression env fuel) m mode s
        else .ok (v, s)) := by
    rw [← commaList_succ, ← hm]
  rw [hList]
  cases r with
  | error m' =>
    obtain ⟨t, hp⟩ := hGives
    exact ⟨t, by rw [hp]; rfl⟩
  | ok o =>
    obtain ⟨v, s', hp, hAt', hv⟩ := hGives
    exact ⟨v, s', m, hAt', hv, by omega, by rw [hp]; rfl⟩

/-- One more member. -/
theorem ListOpen.comma {us : List Token} {ra rb : Except Message (Option Value)} {n : Nat}
    (ha : ListOpen env fuel mode ts ra n) (hn : n < fuel)
    (hb : Reads 11 mode us rb (conditionalExpression env fuel))
    (hError : ∀ m, ra = .error m → r = .error m) (hOk : ∀ o, ra = .ok o → r = rb) :
    ListOpen env fuel mode (ts ++ .comma :: us) r (n + 1) := by
  intro rest s hStops hAt
  rw [List.append_assoc, List.cons_append] at hAt
  have hOpen := ha (.comma :: (us ++ rest)) s rfl hAt
  cases ra with
  | error m =>
    rw [hError m rfl]
    exact hOpen
  | ok o =>
    obtain ⟨v, s', m, hAt', hv, hm, hEq⟩ := hOpen
    obtain ⟨s'', hNext, hAt''⟩ : ∃ s'', s'.next env = .ok s'' ∧ At s'' (us ++ rest) := hAt'.next
    have hSy : s'.sy = .char 44 := hAt'.sy
    obtain ⟨m, rfl⟩ : ∃ j, m = j + 1 := ⟨m - 1, by omega⟩
    have hGives := hb rest s'' hStops hAt''
    have hList : commaList env (conditionalExpression env fuel) fuel mode s =
        (conditionalExpression env fuel mode s'' >>= fun (v, s) =>
          if s.sy = .char 44 then
            s.next env >>= fun s => commaList env (conditionalExpression env fuel) m mode s
          else .ok (v, s)) := by
      rw [hEq, if_pos hSy, hNext]
      exact commaList_succ s''
    rw [hList, hOk o rfl]
    cases rb with
    | error m' =>
      obtain ⟨t, hp⟩ := hGives
      exact ⟨t, by rw [hp]; rfl⟩
    | ok o' =>
      obtain ⟨x, u, hp, hAtU, hx⟩ := hGives
      exact ⟨x, u, m, hAtU, hx, by omega, by rw [hp]; rfl⟩

theorem ListOpen.reads {n : Nat} (h : ListOpen env fuel mode ts r n) :
    Reads 12 mode ts r (commaList env (conditionalExpression env fuel) fuel) := by
  intro rest s hStops hAt
  have hOpen := h rest s (stops_mono hStops (by decide)) hAt
  cases r with
  | error m => exact hOpen
  | ok o =>
    obtain ⟨v, s', m, hAt', hv, -, hEq⟩ := hOpen
    have hSy : s'.sy ≠ .char 44 := by
      rw [hAt'.headSy]
      exact stops_comma hStops
    rw [hEq, if_neg hSy]
    exact Gives.ok hAt' hv

/-- Nothing but a conditional goes on with `?`. -/
theorem Reads.conditional (h : Reads 10 mode ts r (parserAt env fuel 10)) :
    Reads 11 mode ts r (conditionalExpression env (fuel + 1)) := by
  intro rest s hStops hAt
  refine Gives.bind (h rest s (stops_mono hStops (by decide)) hAt) (fun _ h => h)
    fun o v s' hr hv hAt' => ?_
  have hSy : s'.sy ≠ .char 63 := by
    rw [hAt'.headSy]
    exact stops_quest hStops
  simp only [hSy, ↓reduceIte]
  rw [hr]
  exact Gives.ok hAt' hv

/-- The operand between `?` and `:` is read; a comma list is read up to its first comma. -/
def Middle (env : Env) (fuel : Nat) (mode : Mode) (ts : List Token)
    (r : Except Message (Option Value)) : Prop :=
  ∀ rest s, At s (ts ++ .colon :: rest) →
    Gives r (.colon :: rest) (conditionalExpression env fuel mode s) ∨
      r = .error .missingColon ∧
        ∃ x s', conditionalExpression env fuel mode s = .ok (x, s') ∧ s'.sy ≠ .char 58

theorem cond_reads {as bs : List Token} {rc : Except Message (Option Value)}
    (hc : Reads 10 mode ts rc (parserAt env fuel 10))
    (hError : ∀ m, rc = .error m → r = .error m)
    (hOk : ∀ o v, rc = .ok o → (∀ w ∈ o, v = w) → ∃ ra rb,
      Middle env fuel (if toBoolean mode v then mode else .skip) as ra ∧
      (∀ m, ra = .error m → r = .error m) ∧
      Reads 11 (if toBoolean mode v then .skip else mode) bs rb (conditionalExpression env fuel) ∧
      (∀ oa m, ra = .ok oa → rb = .error m → r = .error m) ∧
      ∀ oa ob x y, ra = .ok oa → rb = .ok ob → (∀ w ∈ oa, x = w) → (∀ w ∈ ob, y = w) →
        ∃ o, r = .ok o ∧ ∀ w ∈ o, afterOperand v (if toBoolean mode v then x else y) = w) :
    Reads 11 mode (ts ++ .quest :: (as ++ .colon :: bs)) r
      (conditionalExpression env (fuel + 1)) := by
  intro rest s hStops hAt
  simp only [List.append_assoc, List.cons_append] at hAt
  refine Gives.bind (hc _ s rfl hAt) hError fun o v s₁ hr hv hAt₁ => ?_
  obtain ⟨ra, rb, ha, hErrorA, hb, hErrorB, hResult⟩ := hOk o v hr hv
  obtain ⟨s₂, hNext, hAt₂⟩ :
    ∃ s', s₁.next env = .ok s' ∧ At s' (as ++ .colon :: (bs ++ rest)) := hAt₁.next
  have hQuest : s₁.sy = .char 63 := hAt₁.sy
  simp only [hQuest, ↓reduceIte, hNext]
  rcases ha (bs ++ rest) s₂ hAt₂ with hGives | ⟨rfl, x, s₃, hEq, hColon⟩
  · refine Gives.bind hGives hErrorA fun oa x s₃ hra hx hAt₃ => ?_
    obtain ⟨s₄, hNext₄, hAt₄⟩ : ∃ s', s₃.next env = .ok s' ∧ At s' (bs ++ rest) := hAt₃.next
    have hColon : s₃.sy = .char 58 := hAt₃.sy
    simp only [hColon, ne_eq, not_true_eq_false, ↓reduceIte, hNext₄]
    refine Gives.bind (hb rest s₄ hStops hAt₄) (fun m => hErrorB oa m hra)
      fun ob y s₅ hrb hy hAt₅ => ?_
    obtain ⟨o', rfl, hw⟩ := hResult oa ob x y hra hrb hx hy
    exact Gives.ok hAt₅ hw
  · rw [hErrorA _ rfl]
    refine ⟨s₃.start, ?_⟩
    show (conditionalExpression env fuel _ s₂ >>= _) = _
    rw [hEq]
    show (if s₃.sy ≠ .char 58 then s₃.fail .missingColon else _) = _
    rw [if_pos hColon]
    rfl

end

/-! ## Trees -/

section

variable {env : Env}

theorem tokens_eq (e : Expr) (limit : Nat) :
    e.tokens limit =
      if e.level ≤ limit then e.tokens 12 else .left :: (e.tokens 12 ++ [.right]) := by
  cases e with
  | literal l => simp [Expr.tokens, Expr.level]
  | unary op a => simp [Expr.tokens, Expr.level]
  | binary op a b =>
    have hLevel : op.level + 1 ≤ 12 := by
      have := op.level_lt
      omega
    simp only [Expr.tokens, Expr.level, hLevel, ↓reduceIte]
  | cond c a b => simp [Expr.tokens, Expr.level]
  | comma a b => simp [Expr.tokens, Expr.level]

/-- Where a comma list can stand, its first member comes first, and then a comma. -/
theorem first_tokens (e : Expr) (h : e.level = 12) :
    ∃ tail, e.tokens 12 = e.first.tokens 11 ++ .comma :: tail := by
  induction e with
  | comma a b iha _ =>
    by_cases ha : a.level = 12
    · obtain ⟨tail, hTail⟩ := iha ha
      refine ⟨tail ++ .comma :: b.tokens 11, ?_⟩
      simp [Expr.tokens, Expr.first, hTail]
    · refine ⟨b.tokens 11, ?_⟩
      have hLe : a.level ≤ 11 := by
        have := level_le a
        omega
      simp [Expr.tokens, Expr.first, first_eq ha, tokens_eq a 11, hLe]
  | binary op a b =>
    have := op.level_lt
    simp only [Expr.level] at h
    omega
  | literal l | unary op a | cond c a b => cases h

variable {e : Expr} {m : Message}

@[simp] theorem result_normal_error :
    e.result env .normal = .error m ↔ (e.inOrder env).1 = .error m := by
  simp only [Expr.result, reduceCtorEq, ↓reduceIte]
  cases (e.inOrder env).1 <;> simp [Except.map]

variable {o : Option Value}

@[simp] theorem result_normal_ok :
    e.result env .normal = .ok o ↔ ∃ w, (e.inOrder env).1 = .ok w ∧ o = some w := by
  simp only [Expr.result, reduceCtorEq, ↓reduceIte]
  cases (e.inOrder env).1 <;> simp [Except.map, eq_comm]

@[simp] theorem result_skip_error :
    e.result env .skip = .error m ↔ e.hasCommaMiddle = true ∧ m = .missingColon := by
  simp only [Expr.result, ↓reduceIte]
  cases hMiddle : e.hasCommaMiddle with
  | false => simp
  | true =>
    constructor
    · intro h
      cases h
      exact ⟨rfl, rfl⟩
    · rintro ⟨-, rfl⟩
      rfl

@[simp] theorem result_skip_ok :
    e.result env .skip = .ok o ↔ e.hasCommaMiddle = false ∧ o = none := by
  simp only [Expr.result, ↓reduceIte]
  cases hMiddle : e.hasCommaMiddle with
  | true => simp
  | false =>
    constructor
    · intro h
      cases h
      exact ⟨rfl, rfl⟩
    · rintro ⟨-, rfl⟩
      rfl

/-! ## What is read of a tree, without the parentheses around it -/

/-- The levels at which a tree can stand without parentheses read it. -/
structure Body (env : Env) (e : Expr) (fuel : Nat) (mode : Mode) : Prop where
  unary : e.level = 0 → Reads 0 mode (e.tokens 12) (e.result env mode) (unaryExpression env fuel)
  level : ∀ k < 10, e.level ≤ k + 1 →
    Open env fuel k mode (e.tokens 12) (e.result env mode) e.size
  cond : e.level ≤ 11 →
    Reads 11 mode (e.tokens 12) (e.result env mode) (conditionalExpression env (fuel + 1))
  list : ListOpen env (fuel + 1) mode (e.tokens 12) (e.result env mode) e.size

/-- Every level reads a tree, with the parentheses that it needs. -/
structure Parsed (env : Env) (e : Expr) (fuel : Nat) (mode : Mode) : Prop where
  unary : Reads 0 mode (e.tokens 0) (e.result env mode) (unaryExpression env fuel)
  level : ∀ k < 10, Open env fuel k mode (e.tokens (k + 1)) (e.result env mode) e.size
  cond : Reads 11 mode (e.tokens 11) (e.result env mode) (conditionalExpression env (fuel + 1))
  list : ListOpen env (fuel + 1) mode (e.tokens 12) (e.result env mode) e.size

section

variable {e : Expr} {fuel : Nat} {mode : Mode} {ts : List Token}
  {r : Except Message (Option Value)}

theorem Open.mono {k n m : Nat} (h : Open env fuel k mode ts r n) (hnm : n ≤ m) :
    Open env fuel k mode ts r m := by
  intro rest s hStops hAt
  have hOpen := h rest s hStops hAt
  cases r with
  | error _ => exact hOpen
  | ok o =>
    obtain ⟨v, s', j, hAt', hv, hj, hEq⟩ := hOpen
    exact ⟨v, s', j, hAt', hv, by omega, hEq⟩

theorem ListOpen.mono {n m : Nat} (h : ListOpen env fuel mode ts r n) (hnm : n ≤ m) :
    ListOpen env fuel mode ts r m := by
  intro rest s hStops hAt
  have hOpen := h rest s hStops hAt
  cases r with
  | error _ => exact hOpen
  | ok o =>
    obtain ⟨v, s', j, hAt', hv, hj, hEq⟩ := hOpen
    exact ⟨v, s', j, hAt', hv, by omega, hEq⟩

theorem body_list (hList : ListOpen env (fuel + 1) mode (e.tokens 12) (e.result env mode) e.size)
    (hLevel : e.level = 12) : Body env e fuel mode where
  unary h := by omega
  level k hk h := by omega
  cond h := by omega
  list := hList

theorem body_cond
    (hCond : Reads 11 mode (e.tokens 12) (e.result env mode) (conditionalExpression env (fuel + 1)))
    (hLevel : e.level = 11) : Body env e fuel mode where
  unary h := by omega
  level k hk h := by omega
  cond _ := hCond
  list := (hCond.listOpen (Nat.succ_pos _)).mono e.size_pos

theorem body_level {j : Nat} (hj : j < 10) (hFuel : e.size < fuel)
    (hOpen : Open env fuel j mode (e.tokens 12) (e.result env mode) e.size)
    (hLevel : e.level = j + 1) : Body env e fuel mode := by
  have hReads := hOpen.closed hj hFuel
  have hTen := hReads.mono (show j + 1 ≤ 10 by omega) (Nat.le_refl _) (by omega)
  refine ⟨fun h => by omega, fun k hk h => ?_, fun _ => hTen.conditional,
    (hTen.conditional.listOpen (Nat.succ_pos _)).mono e.size_pos⟩
  rcases Nat.lt_or_ge j k with hLt | hGe
  · exact ((hReads.mono (show j + 1 ≤ k by omega) (by omega) (by omega)).open).mono (Nat.zero_le _)
  · obtain rfl : j = k := by omega
    exact hOpen

theorem body_unary (hFuel : 0 < fuel)
    (hUnary : Reads 0 mode (e.tokens 12) (e.result env mode) (unaryExpression env fuel)) :
    Body env e fuel mode := by
  have hZero := hUnary.unary hFuel
  have hTen := hZero.mono (Nat.zero_le 10) (Nat.le_refl _) hFuel
  exact ⟨fun _ => hUnary,
    fun k hk _ => ((hZero.mono (Nat.zero_le k) (by omega) hFuel).open).mono (Nat.zero_le _),
    fun _ => hTen.conditional, (hTen.conditional.listOpen (Nat.succ_pos _)).mono e.size_pos⟩

/-- Parentheses are put around a tree where they are needed. -/
theorem Body.parsed (h : ∀ fuel, 5 * e.size ≤ fuel + 3 → Body env e fuel mode)
    (hFuel : 5 * e.size ≤ fuel) : Parsed env e fuel mode := by
  have hPos := e.size_pos
  have hBody := h fuel (by omega)
  obtain ⟨g, rfl⟩ : ∃ g, fuel = g + 2 := ⟨fuel - 2, by omega⟩
  have hParen : Reads 0 mode (.left :: (e.tokens 12 ++ [.right])) (e.result env mode)
      (unaryExpression env (g + 2)) :=
    paren_reads (h g (by omega)).list.reads (Nat.succ_pos _)
  have hZero := hParen.unary (Nat.succ_pos _)
  refine ⟨?_, fun k hk => ?_, ?_, hBody.list⟩
  · rw [tokens_eq]
    split
    · exact hBody.unary (by omega)
    · exact hParen
  · rw [tokens_eq]
    split
    · rename_i hLevel
      exact hBody.level k hk hLevel
    · exact ((hZero.mono (Nat.zero_le k) (by omega) (by omega)).open).mono (Nat.zero_le _)
  · rw [tokens_eq]
    split
    · rename_i hLevel
      exact hBody.cond hLevel
    · exact (hZero.mono (Nat.zero_le 10) (Nat.le_refl _) (by omega)).conditional

theorem Parsed.reads (h : Parsed env e fuel mode) (hFuel : e.size < fuel) {k : Nat}
    (hk : k ≤ 10) : Reads k mode (e.tokens k) (e.result env mode) (parserAt env fuel k) := by
  cases k with
  | zero => exact h.unary.unary (by omega)
  | succ k => exact (h.level k (by omega)).closed (by omega) hFuel

end

/-! ## Every kind of tree -/

section

variable {a b c : Expr} {fuel : Nat} {mode : Mode}

theorem applyIn_normal (op : UnOp) (v : Value) : op.applyIn env .normal v = op.apply env v := by
  cases op <;> rfl

theorem literal_body (l : Literal) (hMode : mode = .normal ∨ mode = .skip) (hFuel : 0 < fuel) :
    Body env (.literal l) (fuel + 1) mode := by
  have hReads := literal_reads env mode l hFuel
  refine body_unary (Nat.succ_pos _) ?_
  rcases hMode with rfl | rfl
  · exact hReads
  · intro rest s hStops hAt
    obtain ⟨v, s', hEq, hAt', -⟩ := hReads rest s hStops hAt
    exact ⟨v, s', hEq, hAt', fun w hw => by cases hw⟩

theorem unary_body (op : UnOp) (hMode : mode = .normal ∨ mode = .skip)
    (h : Parsed env a fuel mode) : Body env (.unary op a) (fuel + 1) mode := by
  refine body_unary (Nat.succ_pos _) (unary_reads h.unary (fun m hm => ?_) fun o v ho hv => ?_)
  · rcases hMode with rfl | rfl
    · rw [result_normal_error] at hm ⊢
      simp [Expr.inOrder, hm, bind, Except.bind]
    · exact hm
  · rcases hMode with rfl | rfl
    · obtain ⟨w, hw, rfl⟩ := result_normal_ok.1 ho
      refine ⟨some (op.apply env w), ?_, fun y hy => ?_⟩
      · refine result_normal_ok.2 ⟨_, ?_, rfl⟩
        simp [Expr.inOrder, hw, bind, Except.bind]
      · cases hy
        rw [applyIn_normal, hv w rfl]
    · obtain ⟨hMiddle, rfl⟩ := result_skip_ok.1 ho
      exact ⟨none, result_skip_ok.2 ⟨hMiddle, rfl⟩, fun w hw => by cases hw⟩

theorem comma_body (hMode : mode = .normal ∨ mode = .skip) (hFuel : a.size < fuel)
    (ha : Parsed env a fuel mode) (hb : Parsed env b fuel mode) :
    Body env (.comma a b) fuel mode := by
  refine body_list ?_ rfl
  refine (ha.list.comma (Nat.lt_succ_of_lt hFuel) hb.cond (fun m hm => ?_) fun o ho => ?_).mono ?_
  · rcases hMode with rfl | rfl
    · rw [result_normal_error] at hm ⊢
      simp [Expr.inOrder, hm, bind, Except.bind]
    · obtain ⟨hMiddle, rfl⟩ := result_skip_error.1 hm
      exact result_skip_error.2 ⟨by simp [Expr.hasCommaMiddle, hMiddle], rfl⟩
  · rcases hMode with rfl | rfl
    · obtain ⟨w, hw, rfl⟩ := result_normal_ok.1 ho
      simp [Expr.result, Expr.inOrder, hw, bind, Except.bind]
    · obtain ⟨hMiddle, rfl⟩ := result_skip_ok.1 ho
      simp [Expr.result, Expr.hasCommaMiddle, hMiddle]
  · simp only [Expr.size]
    omega

theorem rightMode_skip (op : BinOp) (v : Value) :
    (table env op.level).rightMode .skip v = .skip := by
  cases op with
  | land | lor => simp [table, BinOp.level, logicalAnd, logicalOr, lazy]
  | _ => rfl

theorem apply_skip (env : Env) (op : BinOp) (v x : Value) :
    ∃ y, (table env op.level).apply .skip op.sy v x = .ok y := by
  cases op <;> exact ⟨_, rfl⟩

variable {op : BinOp}

theorem strict_rightMode (h : op.IsStrict) (v : Value) :
    (table env op.level).rightMode mode v = mode := by
  cases op with
  | land => exact absurd rfl h.1
  | lor => exact absurd rfl h.2
  | _ => rfl

theorem strict_apply (h : op.IsStrict) (v x : Value) :
    (table env op.level).apply .normal op.sy v x = op.apply env v x := by
  cases op with
  | land => exact absurd rfl h.1
  | lor => exact absurd rfl h.2
  | _ => rfl

theorem lazy_op (env : Env) (h : ¬ op.IsStrict) :
    ∃ wanted : Bool,
      (∀ mode v, (table env op.level).rightMode mode v =
        if toBoolean mode v = wanted then mode else .skip) ∧
      (∀ mode v x, (table env op.level).apply mode op.sy v x =
        .ok (if toBoolean mode v = wanted then afterOperand v x else v)) ∧
      ∀ a b, ((Expr.binary op a b).inOrder env).1 = (do
        let v ← (a.inOrder env).1
        if isTrue v = wanted then (b.inOrder env).1 else skipped b v) := by
  obtain ⟨wanted, rfl, hInOrder, -, -⟩ := lazy_inOrder env h
  refine ⟨wanted, fun mode v => ?_, fun mode v x => ?_, hInOrder⟩
  · cases wanted <;> rfl
  · cases wanted <;> rfl

theorem afterOperand_constant {v : Value} (h : v.constant = true) (x : Value) :
    afterOperand v x = x := by simp [afterOperand, h]

theorem binary_body (op : BinOp) (hMode : mode = .normal ∨ mode = .skip)
    (hFuel : a.size + b.size + 1 < fuel) (ha : Parsed env a fuel mode)
    (hb : ∀ mode, mode = .normal ∨ mode = .skip → Parsed env b fuel mode) :
    Body env (.binary op a b) fuel mode := by
  have hLevel := op.level_lt
  have hReads (mode' : Mode) (h : mode' = .normal ∨ mode' = .skip) :
      Reads op.level mode' (b.tokens op.level) (b.result env mode')
        (parserAt env fuel op.level) := (hb mode' h).reads (by omega) (by omega)
  have hTokens : (Expr.binary op a b).tokens 12 =
      a.tokens (op.level + 1) ++ .binary op :: b.tokens op.level := by
    simp only [Expr.tokens]
    rw [if_pos (by omega)]
  refine body_level hLevel hFuel ?_ rfl
  rw [hTokens]
  refine ((ha.level op.level hLevel).binary (by omega) (fun m hm => ?_)
    fun o v ho hv => ?_).mono (by simp only [Expr.size]; omega)
  · rcases hMode with rfl | rfl
    · rw [result_normal_error] at hm ⊢
      simp [Expr.inOrder, hm, bind, Except.bind]
    · obtain ⟨hMiddle, rfl⟩ := result_skip_error.1 hm
      exact result_skip_error.2 ⟨by simp [Expr.hasCommaMiddle, hMiddle], rfl⟩
  · rcases hMode with rfl | rfl
    · obtain ⟨w, hw, rfl⟩ := result_normal_ok.1 ho
      obtain rfl := hv w rfl
      have hConstant := inOrder_constant a hw
      by_cases hStrict : op.IsStrict
      · rw [strict_rightMode hStrict]
        refine ⟨_, hReads .normal (.inl rfl), fun m hm => ?_, fun o' x hx hxo => ?_⟩
        · rw [result_normal_error] at hm ⊢
          rw [strict_inOrder hStrict, hw]
          simp [hm, bind, Except.bind]
        · obtain ⟨w', hw', rfl⟩ := result_normal_ok.1 hx
          obtain rfl := hxo w' rfl
          have hInOrder : ((Expr.binary op a b).inOrder env).1 = op.apply env v x := by
            rw [strict_inOrder hStrict, hw, hw']
            rfl
          rw [strict_apply hStrict]
          cases hApply : op.apply env v x with
          | ok y => exact ⟨some y, result_normal_ok.2 ⟨y, hInOrder.trans hApply, rfl⟩,
              fun z hz => by cases hz; rfl⟩
          | error m => exact result_normal_error.2 (hInOrder.trans hApply)
      · obtain ⟨wanted, hRight, hApply, hInOrder⟩ := lazy_op env hStrict
        have hBinary : ((Expr.binary op a b).inOrder env).1 =
            if isTrue v = wanted then (b.inOrder env).1 else skipped b v := by
          rw [hInOrder, hw]
          rfl
        have hTrue : toBoolean .normal v = isTrue v := rfl
        rw [hRight, hTrue]
        by_cases hWanted : isTrue v = wanted
        · rw [if_pos hWanted] at hBinary ⊢
          refine ⟨_, hReads .normal (.inl rfl), fun m hm => ?_, fun o' x hx hxo => ?_⟩
          · rw [result_normal_error] at hm ⊢
            exact hBinary.trans hm
          · obtain ⟨w', hw', rfl⟩ := result_normal_ok.1 hx
            obtain rfl := hxo w' rfl
            simp only [hApply, hTrue, hWanted, ↓reduceIte, afterOperand_constant hConstant]
            exact ⟨some x, result_normal_ok.2 ⟨x, hBinary.trans hw', rfl⟩,
              fun z hz => by cases hz; rfl⟩
        · rw [if_neg hWanted] at hBinary ⊢
          rw [skipped_eq] at hBinary
          refine ⟨_, hReads .skip (.inr rfl), fun m hm => ?_, fun o' x hx _ => ?_⟩
          · obtain ⟨hMiddle, rfl⟩ := result_skip_error.1 hm
            rw [result_normal_error, hBinary, if_pos hMiddle]
          · obtain ⟨hMiddle, rfl⟩ := result_skip_ok.1 hx
            rw [hMiddle] at hBinary
            simp only [hApply, hTrue, hWanted, ↓reduceIte]
            exact ⟨some v, result_normal_ok.2 ⟨v, hBinary, rfl⟩, fun z hz => by cases hz; rfl⟩
    · obtain ⟨hMiddle, rfl⟩ := result_skip_ok.1 ho
      rw [rightMode_skip]
      refine ⟨_, hReads .skip (.inr rfl), fun m hm => ?_, fun o' x hx _ => ?_⟩
      · obtain ⟨hMiddle', rfl⟩ := result_skip_error.1 hm
        exact result_skip_error.2 ⟨by simp [Expr.hasCommaMiddle, hMiddle'], rfl⟩
      · obtain ⟨hMiddle', rfl⟩ := result_skip_ok.1 hx
        obtain ⟨y, hy⟩ := apply_skip env op v x
        simp only [hy]
        exact ⟨none, result_skip_ok.2 ⟨by simp [Expr.hasCommaMiddle, hMiddle, hMiddle'], rfl⟩,
          fun w hw => by cases hw⟩

/-- What is expected between `?` and `:`. -/
def Expr.midResult (env : Env) (mode : Mode) (a : Expr) : Except Message (Option Value) :=
  if a.level = 12 then
    match a.first.result env mode with
    | .ok _ => .error .missingColon
    | .error m => .error m
  else a.result env mode

theorem middle_reads (h : Parsed env a.first fuel mode) :
    Middle env (fuel + 1) mode (a.tokens 12) (a.midResult env mode) := by
  intro rest s hAt
  unfold Expr.midResult
  by_cases hLevel : a.level = 12
  · obtain ⟨tail, hTail⟩ := first_tokens a hLevel
    rw [hTail, List.append_assoc] at hAt
    have hGives := h.cond (.comma :: (tail ++ .colon :: rest)) s rfl hAt
    rw [if_pos hLevel]
    cases hFirst : a.first.result env mode with
    | error m =>
      rw [hFirst] at hGives
      exact .inl hGives
    | ok o =>
      rw [hFirst] at hGives
      obtain ⟨x, s', hEq, hAt', -⟩ := hGives
      refine .inr ⟨rfl, x, s', hEq, ?_⟩
      rw [hAt'.sy]
      decide
  · have hLe : a.level ≤ 11 := by
      have := level_le a
      omega
    have hTokens : a.tokens 11 = a.tokens 12 := by rw [tokens_eq a 11, if_pos hLe]
    rw [first_eq hLevel] at h
    rw [if_neg hLevel]
    rw [← hTokens] at hAt
    exact .inl (h.cond (.colon :: rest) s rfl hAt)

theorem midResult_skip_error (h : a.midResult env .skip = .error m) :
    m = .missingColon ∧ (a.level = 12 ∨ a.hasCommaMiddle = true) := by
  unfold Expr.midResult at h
  split at h
  · rename_i hLevel
    split at h
    · cases h
      exact ⟨rfl, .inl hLevel⟩
    · rename_i m' hFirst
      cases h
      exact ⟨(result_skip_error.1 hFirst).2, .inl hLevel⟩
  · obtain ⟨hMiddle, rfl⟩ := result_skip_error.1 h
    exact ⟨rfl, .inr hMiddle⟩

theorem midResult_ok (h : a.midResult env mode = .ok o) :
    a.level ≠ 12 ∧ a.result env mode = .ok o := by
  unfold Expr.midResult at h
  split at h
  · split at h <;> cases h
  · rename_i hLevel
    exact ⟨hLevel, h⟩

theorem midResult_normal_error (h : a.midResult env .normal = .error m) :
    (do
      let x ← (a.inOrder env).2
      if a.level = 12 then .error .missingColon else skipped b x) = .error m := by
  unfold Expr.midResult at h
  rw [first_inOrder]
  split at h
  · rename_i hLevel
    split at h
    · rename_i o hFirst
      cases h
      obtain ⟨w, hw, rfl⟩ := result_normal_ok.1 hFirst
      simp [hw, hLevel, bind, Except.bind]
    · rename_i m' hFirst
      cases h
      rw [result_normal_error.1 hFirst]
      rfl
  · rename_i hLevel
    rw [first_eq hLevel, result_normal_error.1 h]
    rfl

theorem cond_inOrder {v : Value} (hc : (c.inOrder env).1 = .ok v) :
    ((Expr.cond c a b).inOrder env).1 =
      if isTrue v then do
        let x ← (a.inOrder env).2
        if a.level = 12 then .error .missingColon else skipped b x
      else if a.level = 12 then .error .missingColon
      else skipped a v >>= fun _ => (b.inOrder env).1 := by
  simp only [Expr.inOrder, hc]
  rfl

theorem cond_body (hMode : mode = .normal ∨ mode = .skip)
    (hFuel : c.size + 1 < fuel) (hc : Parsed env c (fuel + 1) mode)
    (ha : ∀ mode, mode = .normal ∨ mode = .skip → Parsed env a.first fuel mode)
    (hb : ∀ mode, mode = .normal ∨ mode = .skip → Parsed env b fuel mode) :
    Body env (.cond c a b) (fuel + 1) mode := by
  have hMiddle (mode' : Mode) (h : mode' = .normal ∨ mode' = .skip) :
      Middle env (fuel + 1) mode' (a.tokens 12) (a.midResult env mode') := middle_reads (ha mode' h)
  have hTokens : (Expr.cond c a b).tokens 12 =
      c.tokens 10 ++ .quest :: (a.tokens 12 ++ .colon :: b.tokens 11) := rfl
  refine body_cond ?_ rfl
  rw [hTokens]
  refine cond_reads (hc.reads (by omega) (Nat.le_refl _)) (fun m hm => ?_) fun o v ho hv => ?_
  · rcases hMode with rfl | rfl
    · rw [result_normal_error] at hm ⊢
      simp [Expr.inOrder, hm, bind, Except.bind]
    · obtain ⟨hMiddle, rfl⟩ := result_skip_error.1 hm
      exact result_skip_error.2 ⟨by simp [Expr.hasCommaMiddle, hMiddle], rfl⟩
  · rcases hMode with rfl | rfl
    · obtain ⟨w, hw, rfl⟩ := result_normal_ok.1 ho
      obtain rfl := hv w rfl
      have hConstant := inOrder_constant c hw
      have hCond := cond_inOrder (a := a) (b := b) hw
      -- only the branch that is wanted is evaluated, the other is read in skip mode
      have hTrue : toBoolean .normal v = isTrue v := rfl
      simp only [hTrue, afterOperand_constant hConstant]
      by_cases hWanted : isTrue v = true
      · simp only [hWanted, ↓reduceIte] at hCond ⊢
        refine ⟨_, _, hMiddle .normal (.inl rfl), fun m hm => ?_, (hb .skip (.inr rfl)).cond,
          fun oa m hoa hm => ?_, fun oa ob x y hoa hob hx hy => ?_⟩
        · exact result_normal_error.2 (hCond.trans (midResult_normal_error hm))
        · obtain ⟨hLevel, hA⟩ := midResult_ok hoa
          obtain ⟨w', hw', rfl⟩ := result_normal_ok.1 hA
          obtain ⟨hMiddleB, rfl⟩ := result_skip_error.1 hm
          rw [result_normal_error, hCond, first_inOrder, first_eq hLevel, hw']
          simp [hLevel, skipped, hMiddleB, bind, Except.bind]
        · obtain ⟨hLevel, hA⟩ := midResult_ok hoa
          obtain ⟨w', hw', rfl⟩ := result_normal_ok.1 hA
          obtain ⟨hMiddleB, rfl⟩ := result_skip_ok.1 hob
          refine ⟨some w', result_normal_ok.2 ⟨w', ?_, rfl⟩, fun z hz => ?_⟩
          · rw [hCond, first_inOrder, first_eq hLevel, hw']
            simp [hLevel, skipped, hMiddleB, bind, Except.bind]
          · cases hz
            exact hx w' rfl
      · simp only [Bool.not_eq_true] at hWanted
        simp only [hWanted, Bool.false_eq_true, ↓reduceIte] at hCond ⊢
        refine ⟨_, _, hMiddle .skip (.inr rfl), fun m hm => ?_, (hb .normal (.inl rfl)).cond,
          fun oa m hoa hm => ?_, fun oa ob x y hoa hob hx hy => ?_⟩
        · rw [result_normal_error, hCond]
          obtain ⟨rfl, hLevel | hMiddleA⟩ := midResult_skip_error hm
          · rw [if_pos hLevel]
          · simp [skipped, hMiddleA, bind, Except.bind]
        · obtain ⟨hLevel, hA⟩ := midResult_ok hoa
          obtain ⟨hMiddleA, -⟩ := result_skip_ok.1 hA
          rw [result_normal_error] at hm ⊢
          rw [hCond, if_neg hLevel]
          simp [skipped, hMiddleA, hm, bind, Except.bind]
        · obtain ⟨hLevel, hA⟩ := midResult_ok hoa
          obtain ⟨hMiddleA, -⟩ := result_skip_ok.1 hA
          obtain ⟨w', hw', rfl⟩ := result_normal_ok.1 hob
          refine ⟨some w', result_normal_ok.2 ⟨w', ?_, rfl⟩, fun z hz => ?_⟩
          · rw [hCond, if_neg hLevel]
            simp [skipped, hMiddleA, hw', bind, Except.bind]
          · cases hz
            exact hy w' rfl
    -- in skip mode the condition has no value, and both branches are skipped
    · obtain ⟨hMiddleC, rfl⟩ := result_skip_ok.1 ho
      have hFalse : toBoolean .skip v = false := rfl
      simp only [hFalse, Bool.false_eq_true, ↓reduceIte]
      refine ⟨_, _, hMiddle .skip (.inr rfl), fun m hm => ?_, (hb .skip (.inr rfl)).cond,
        fun oa m hoa hm => ?_, fun oa ob x y hoa hob hx hy => ?_⟩
      · obtain ⟨rfl, hLevel | hMiddleA⟩ := midResult_skip_error hm
        · exact result_skip_error.2 ⟨by simp [Expr.hasCommaMiddle, hLevel], rfl⟩
        · exact result_skip_error.2 ⟨by simp [Expr.hasCommaMiddle, hMiddleA], rfl⟩
      · obtain ⟨hMiddleB, rfl⟩ := result_skip_error.1 hm
        exact result_skip_error.2 ⟨by simp [Expr.hasCommaMiddle, hMiddleB], rfl⟩
      · obtain ⟨hLevel, hA⟩ := midResult_ok hoa
        obtain ⟨hMiddleA, -⟩ := result_skip_ok.1 hA
        obtain ⟨hMiddleB, -⟩ := result_skip_ok.1 hob
        refine ⟨none, result_skip_ok.2 ⟨?_, rfl⟩, fun z hz => by cases hz⟩
        simp [Expr.hasCommaMiddle, hMiddleA, hMiddleB, hMiddleC, hLevel]

end

/-! ## All trees -/

/-- Every level reads every tree, by induction on the size of the tree. -/
theorem parsed (n : Nat) (e : Expr) (hSize : e.size ≤ n) {fuel : Nat} {mode : Mode}
    (hMode : mode = .normal ∨ mode = .skip) (hFuel : 5 * e.size ≤ fuel) :
    Parsed env e fuel mode := by
  induction n generalizing e fuel mode with
  | zero =>
    have := e.size_pos
    omega
  | succ n ih =>
    refine Body.parsed (fun fuel hFuel => ?_) hFuel
    cases e with
    | literal l =>
      simp only [Expr.size] at hFuel
      obtain ⟨g, rfl⟩ : ∃ g, fuel = g + 1 := ⟨fuel - 1, by omega⟩
      exact literal_body l hMode (by omega)
    | unary op a =>
      simp only [Expr.size] at hFuel hSize
      obtain ⟨g, rfl⟩ : ∃ g, fuel = g + 1 := ⟨fuel - 1, by omega⟩
      exact unary_body op hMode (ih a (by omega) hMode (by omega))
    | binary op a b =>
      simp only [Expr.size] at hFuel hSize
      have := a.size_pos
      have := b.size_pos
      exact binary_body op hMode (by omega) (ih a (by omega) hMode (by omega))
        fun mode' h => ih b (by omega) h (by omega)
    | cond c a b =>
      simp only [Expr.size] at hFuel hSize
      have := c.size_pos
      have := a.size_pos
      have := b.size_pos
      have := first_size a
      obtain ⟨g, rfl⟩ : ∃ g, fuel = g + 1 := ⟨fuel - 1, by omega⟩
      exact cond_body hMode (by omega) (ih c (by omega) hMode (by omega))
        (fun mode' h => ih a.first (by omega) h (by omega))
        fun mode' h => ih b (by omega) h (by omega)
    | comma a b =>
      simp only [Expr.size] at hFuel hSize
      have := a.size_pos
      have := b.size_pos
      exact comma_body hMode (by omega) (ih a (by omega) hMode (by omega))
        (ih b (by omega) hMode (by omega))

/-! ## Texts -/

/-- A blank before every token. -/
def spaced : List Token → Text
  | [] => []
  | t :: ts => 32 :: (t.text ++ spaced ts)

theorem written_spaced (ts : List Token) : Written ts (spaced ts) := by
  induction ts with
  | nil => exact .nil (by simp [spaced, Blank])
  | cons t ts ih =>
    have hApart : Apart (spaced ts) := by
      cases ts with
      | nil => simp [spaced, Apart]
      | cons u us => simp [spaced, Apart, isBlank]
    have hBlank : Blank [32] := by simp [Blank, isBlank]
    exact .cons hBlank hApart ih

theorem size_le_tokens (e : Expr) (limit : Nat) : e.size ≤ (e.tokens limit).length := by
  induction e generalizing limit with
  | literal l => exact Nat.le_refl _
  | unary op a ih =>
    have := ih 0
    simp only [Expr.size, Expr.tokens, List.length_cons]
    omega
  | binary op a b iha ihb =>
    have := iha (op.level + 1)
    have := ihb op.level
    simp only [Expr.size, Expr.tokens]
    split <;> simp only [List.length_append, List.length_cons, List.length_nil] <;> omega
  | cond c a b ihc iha ihb =>
    have := ihc 10
    have := iha 12
    have := ihb 11
    simp only [Expr.size, Expr.tokens]
    split <;> simp only [List.length_append, List.length_cons, List.length_nil] <;> omega
  | comma a b iha ihb =>
    have := iha 12
    have := ihb 11
    simp only [Expr.size, Expr.tokens]
    split <;> simp only [List.length_append, List.length_cons, List.length_nil] <;> omega

theorem tokens_lower {e : Expr} (h : e.isLower = true) (limit : Nat) :
    ∀ t ∈ e.tokens limit, t.isLower = true := by
  have hParens {p : Prop} [Decidable p] {body : List Token} (hBody : ∀ t ∈ body, t.isLower = true) :
      ∀ t ∈ if p then body else .left :: (body ++ [.right]), t.isLower = true := by
    split
    · exact hBody
    · exact List.forall_mem_cons.2 ⟨rfl,
        List.forall_mem_append.2 ⟨hBody, List.forall_mem_singleton.2 rfl⟩⟩
  have hMiddle {as bs : List Token} {u : Token} (ha : ∀ t ∈ as, t.isLower = true)
      (hu : u.isLower = true) (hb : ∀ t ∈ bs, t.isLower = true) :
      ∀ t ∈ as ++ u :: bs, t.isLower = true :=
    List.forall_mem_append.2 ⟨ha, List.forall_mem_cons.2 ⟨hu, hb⟩⟩
  induction e generalizing limit with
  | literal l => exact List.forall_mem_singleton.2 h
  | unary op a ih =>
    refine List.forall_mem_cons.2 ⟨?_, ih h 0⟩
    cases op <;> rfl
  | binary op a b iha ihb =>
    obtain ⟨ha, hb⟩ := Bool.and_eq_true_iff.1 h
    exact hParens (hMiddle (u := .binary op) (iha ha _) rfl (ihb hb _))
  | cond c a b ihc iha ihb =>
    obtain ⟨hca, hb⟩ := Bool.and_eq_true_iff.1 h
    obtain ⟨hc, ha⟩ := Bool.and_eq_true_iff.1 hca
    exact hParens (hMiddle (u := .quest) (ihc hc _) rfl
      (hMiddle (u := .colon) (iha ha _) rfl (ihb hb _)))
  | comma a b iha ihb =>
    obtain ⟨ha, hb⟩ := Bool.and_eq_true_iff.1 h
    exact hParens (hMiddle (u := .comma) (iha ha _) rfl (ihb hb _))

theorem Token.text_pos (t : Token) : 0 < t.text.length := by
  cases t with
  | literal l => cases l <;> exact Nat.succ_pos _
  | binary op => cases op <;> decide
  | complement | not | left | right | quest | colon | comma => decide

theorem Written.length_le {ts : List Token} {text : Text} (h : Written ts text) :
    ts.length ≤ text.length := by
  induction h with
  | nil _ => exact Nat.zero_le _
  | @cons t ts blank rest _ _ _ ih =>
    have hPos := t.text_pos
    simp only [List.length_cons, List.length_append]
    omega

/-- The result of a writing of a tree. -/
theorem evaluateExpression_eq {text : Text} (hLower : e.isLower = true)
    (h : Written (e.tokens 12) text) :
    (evaluateExpression env text).mapError Error.message = (e.inOrder env).1 := by
  have hLength := h.length_le
  have hSize := size_le_tokens e 12
  have hPos := e.size_pos
  have hText : text ≠ [] := by
    rintro rfl
    simp only [List.length_nil] at hLength
    omega
  obtain ⟨s, hNext, hAt⟩ : ∃ s, nextSy env text = .ok s ∧ At s (e.tokens 12) :=
    nextSy_written h (tokens_lower hLower 12)
  have hParsed : Parsed env e (5 * text.length) .normal :=
    parsed e.size e (Nat.le_refl _) (.inl rfl) (by omega)
  have hGives := hParsed.list.reads [] s rfl (by rwa [List.append_nil])
  have hEval : evaluateExpression env text =
      (commaList env (conditionalExpression env (5 * text.length + 1)) (5 * text.length + 1)
        .normal s >>= fun (v, s) => if s.sy ≠ .eof then s.fail .illegalEnd else .ok v) := by
    unfold evaluateExpression fuelFor
    rw [if_neg hText, hNext]
    rfl
  rw [hEval]
  cases hResult : e.result env .normal with
  | error m =>
    rw [hResult] at hGives
    obtain ⟨t, hp⟩ := hGives
    rw [hp, result_normal_error.1 hResult]
    rfl
  | ok o =>
    rw [hResult] at hGives
    obtain ⟨w, hw, rfl⟩ := result_normal_ok.1 hResult
    obtain ⟨v, s', hp, hAt', hv⟩ := hGives
    obtain rfl := hv w rfl
    have hEof : s'.sy = .eof := hAt'
    rw [hp, hw]
    show Except.mapError Error.message (if s'.sy ≠ .eof then s'.fail .illegalEnd else .ok v) = _
    rw [if_neg (not_not_intro hEof)]
    rfl

/-- The text gives the value of the tree or its first error, and no operation is undefined. -/
def Evaluates (env : Env) (e : Expr) (text : Text) : Prop :=
  (evaluateExpression env text).mapError Error.message = eval env e ∧
    (evaluateExpression env text).mapError Error.message ≠ .error .undefined

/-- The trees that are evaluated: C gives them a value or a division by zero, and that comes before
any comma list between `?` and `:`. -/
def Expr.Sound (env : Env) (e : Expr) : Prop :=
  e.accepted env true = true ∧ eval env e ≠ .error .undefined

end

/-- A machine with `int` of 4 bytes, and without names. -/
def plainEnv : Env where
  stdSize name typeClass :=
    if typeClass ≠ .enumeration ∧ name ∈ ["int", "unsigned int"] then some .s4
    else if typeClass ≠ .enumeration ∧ name ∈ ["long int", "unsigned long int"] then some .s8
    else none
  wordSize := .s8
  shiftOver := 0
  otherSymbol _ _ := .error .illegalCharacter
  otherUnary _ s := s.fail .syntaxError
  typeCast _ _ := .ok none
  otherPrimary _ s := s.fail .syntaxError
  postfixOp _ _ s := s.fail .syntaxError
  pmOp _ _ s := s.fail .syntaxError

def decimal (first : Fin 9) : Expr := .literal (.decimal first [] [])

/-- `9 - 4 - 3` -/
def minusExample : Expr := .binary .sub (.binary .sub (decimal 8) (decimal 3)) (decimal 2)

/-- `1 ? 2 , 3 : 4` -/
def commaExample : Expr := .cond (decimal 0) (.comma (decimal 1) (decimal 2)) (decimal 3)

end TcfAgent.Expressions
