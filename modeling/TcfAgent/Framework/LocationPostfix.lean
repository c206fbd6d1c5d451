import TcfAgent.Framework.LocationMachine

/-!
# Location commands as a postfix machine

What location commands mean: each one takes so many values from a stack and puts others there,
and an operator puts the remainder of its result modulo 2^64.

`evaluate_location_expression` does two things of its own: it adds two values that are left, and a
value of more than eight bytes that is all there is becomes a piece of memory. Left out, by
`Covered`, is what goes wrong: `SFT_CMD_NEG` drops its value, C leaves a shift by 64 or more open,
and the lengths of the arrays can wrap.

Main results:

* `command_reference`  — a command does on lists what its operation does;
* `evaluate_reference` — what an expression leaves.
-/

namespace TcfAgent.Location

open TcfAgent.Lib

variable {Reg : Type}

/-! ## The operations -/

/-- An operation on words; the state are the arguments. -/
abbrev WordOp : Type := PostfixOp Word (List Word) Failure

/-- A constant, or what is read. -/
def pushOp (read : List Word → Except Failure Word) : WordOp where
  arity := 0
  run _ args := (read args).map fun v => ([v], args)

def unaryOp (f : Word → Except Failure Word) : WordOp where
  arity := 1
  run
    | v :: _, args => (f v).map fun w => ([w], args)
    | [], _ => .error locationExpressionError

/-- The topmost value is the right operand. -/
def binaryOp (f : Nat → Nat → Except Failure Int) : WordOp where
  arity := 2
  run
    | b :: a :: _, args => (f a.toNat b.toNat).map fun n => ([BitVec.ofInt 64 n], args)
    | _, _ => .error locationExpressionError

def setArgOp (argNo : Nat) : WordOp where
  arity := 1
  run
    | v :: _, args => .ok ([], setArg args argNo v)
    | [], _ => .error locationExpressionError

/-- What a comparison is worth. -/
def truth (p : Bool) : Int := if p then 1 else 0

def Command.operation (t : Target Reg) : Command Reg → WordOp
  | .number num => pushOp fun _ => .ok num
  | .rdReg reg => pushOp fun _ => orException (t.readRegValue reg)
  | .rdRegPcxiTricore reg => pushOp fun _ => (orException (t.readRegValue reg)).map savedArea
  | .fp => pushOp fun _ =>
    match t.frame with
    | none => .error (strException Err.invContext "Invalid stack frame")
    | some v => .ok v
  | .rdMem size big => unaryOp fun addr =>
    if size ≤ 8 then t.readMem big addr size else .error (exception Err.invDataSize)
  | .add => binaryOp fun a b => .ok (a + b)
  | .sub => binaryOp fun a b => .ok (a - b)
  | .mul => binaryOp fun a b => .ok (a * b)
  | .div => binaryOp fun a b =>
    if b = 0 then .error (strException Err.other "Division by zero in location expression")
    else .ok (a / b : Nat)
  | .and => binaryOp fun a b => .ok (a &&& b : Nat)
  | .or => binaryOp fun a b => .ok (a ||| b : Nat)
  | .xor => binaryOp fun a b => .ok (a ^^^ b : Nat)
  | .neg => unaryOp fun v => .ok (BitVec.ofInt 64 (-1 - v.toNat))
  | .ge => binaryOp fun a b => .ok (truth (b ≤ a))
  | .gt => binaryOp fun a b => .ok (truth (b < a))
  | .le => binaryOp fun a b => .ok (truth (a ≤ b))
  | .lt => binaryOp fun a b => .ok (truth (a < b))
  | .shl => binaryOp fun a b => .ok (a * 2 ^ b : Nat)
  | .shr => binaryOp fun a b => .ok (a / 2 ^ b : Nat)
  | .arg argNo => pushOp fun args =>
    match args[argNo]? with
    | none => .error locationExpressionError
    | some v => .ok v
  | .setArg argNo => setArgOp argNo

/-- The stack, its top first, and the arguments, after the commands. -/
def Target.reference (t : Target Reg) (cmds : List (Command Reg)) (s : List Word × List Word) :
    Except Failure (List Word × List Word) :=
  postfixRun locationExpressionError (cmds.map (Command.operation t)) s

/-! ## One command -/

/-- Nothing goes wrong with the command. -/
def Command.Covered (cmd : Command Reg) (s : List Word × List Word) : Prop :=
  s.1.length + 4 < 2 ^ 32 ∧
    match cmd with
    | .neg => s.1 = []
    | .shl => ∀ b ∈ s.1.head?, b.toNat < 64
    | .shr => ∀ b ∈ s.1.head?, b.toNat < 64
    | .setArg argNo => argNo + 1 < 2 ^ 32
    | _ => True

/-- The state with these values and arguments. -/
def State.of (r : List Word × List Word) : State := { stk := r.1, args := r.2 }

section

variable {t : Target Reg} {stk args : List Word} {last : Bool}

theorem pushOp_step (read : List Word → Except Failure Word) :
    (postfixStep locationExpressionError (pushOp read) (stk, args)).map State.of =
      (read args).map fun v => State.of (v :: stk, args) := by
  rw [postfixStep_of_le (Nat.zero_le _)]
  show Except.map State.of (Except.map (fun r => (r.1 ++ stk, r.2))
    ((read args).map fun v => ([v], args))) = _
  cases read args <;> rfl

theorem unaryOp_step (f : Word → Except Failure Word) :
    (postfixStep locationExpressionError (unaryOp f) (stk, args)).map State.of =
      match stk with
      | [] => .error locationExpressionError
      | v :: rest => (f v).map fun w => State.of (w :: rest, args) := by
  rcases stk with - | ⟨v, rest⟩
  · rfl
  · have hLe : (unaryOp f).arity ≤ ((v :: rest, args) : List Word × List Word).1.length :=
      Nat.succ_le_succ (Nat.zero_le _)
    rw [postfixStep_of_le hLe]
    show Except.map State.of (Except.map (fun r => (r.1 ++ rest, r.2))
      ((f v).map fun w => ([w], args))) = (f v).map fun w => State.of (w :: rest, args)
    cases f v <;> rfl

theorem binaryOp_step {f : Nat → Nat → Except Failure Int} {g : Word → Word → Except Failure Word}
    (h : ∀ b ∈ stk.head?, ∀ a, (f a.toNat b.toNat).map (BitVec.ofInt 64) = g a b) :
    (postfixStep locationExpressionError (binaryOp f) (stk, args)).map State.of =
      binary g (State.of (stk, args)) := by
  rcases stk with - | ⟨b, - | ⟨a, rest⟩⟩
  · rfl
  · rfl
  · have hLe : (binaryOp f).arity ≤ ((b :: a :: rest, args) : List Word × List Word).1.length :=
      Nat.succ_le_succ (Nat.succ_le_succ (Nat.zero_le _))
    rw [postfixStep_of_le hLe]
    show Except.map State.of (Except.map (fun r => (r.1 ++ rest, r.2))
      ((f a.toNat b.toNat).map fun n => ([BitVec.ofInt 64 n], args))) =
        (g a b).map fun v => State.of (v :: rest, args)
    rw [← h b rfl a]
    cases f a.toNat b.toNat <;> rfl

/-! ## Words and numbers -/

theorem ofInt_toNat (n : Nat) (w : Word) (h : w.toNat = n % 2 ^ 64) :
    BitVec.ofInt 64 (n : Int) = w := by
  rw [BitVec.ofInt_natCast]
  exact BitVec.eq_of_toNat_eq (by rw [BitVec.toNat_ofNat, h])

theorem ofInt_truth (p : Bool) : BitVec.ofInt 64 (truth p) = flag p := by
  cases p <;> rfl

theorem ofInt_sub (a b : Word) : BitVec.ofInt 64 ((a.toNat : Int) - b.toNat) = a - b := by
  refine BitVec.eq_of_toNat_eq ?_
  rw [BitVec.toNat_ofInt, BitVec.toNat_sub]
  omega

/-- What each binary operator puts is the remainder of its result. -/
theorem binary_result {cmd : Command Reg} (f : Nat → Nat → Int) (g : Word → Word → Word)
    (hOp : cmd.operation t = binaryOp fun a b => .ok (f a b))
    (hCmd : ∀ s, t.command last cmd s = binary (fun a b => .ok (g a b)) s)
    (h : ∀ b ∈ stk.head?, ∀ a : Word, BitVec.ofInt 64 (f a.toNat b.toNat) = g a b) :
    t.command last cmd (State.of (stk, args)) =
      (postfixStep locationExpressionError (cmd.operation t) (stk, args)).map State.of := by
  rw [hOp, hCmd, binaryOp_step fun b hb a => ?_]
  exact congrArg Except.ok (h b hb a)

/-- A command does on lists what its operation does; a value of more than eight bytes, when it is
all there is, becomes a piece. -/
theorem command_reference (t : Target Reg) (last : Bool) (cmd : Command Reg)
    (h : cmd.Covered (stk, args)) :
    t.command last cmd (State.of (stk, args)) =
        (postfixStep locationExpressionError (cmd.operation t) (stk, args)).map State.of ∨
      ∃ size big addr, cmd = .rdMem size big ∧ 8 < size ∧ last = true ∧ stk = [addr] ∧
        t.command last cmd (State.of (stk, args)) =
          .ok { stk := [], args := args, piece := some (addr, size) } := by
  cases cmd with
  | number num => exact .inl rfl
  | rdReg reg =>
    refine .inl ?_
    rw [Command.operation, pushOp_step]
    rfl
  | rdRegPcxiTricore reg =>
    refine .inl ?_
    rw [Command.operation, pushOp_step]
    simp only [Target.command]
    cases orException (t.readRegValue reg) <;> rfl
  | fp =>
    refine .inl ?_
    rw [Command.operation, pushOp_step]
    simp only [Target.command]
    cases t.frame <;> rfl
  | rdMem size big =>
    rw [Command.operation, unaryOp_step]
    rcases stk with - | ⟨addr, rest⟩
    · exact .inl rfl
    -- more than 8 bytes are an error, or the whole piece when nothing follows
    · by_cases hSize : size ≤ 8
      · refine .inl ?_
        simp only [Target.command, State.of, if_pos hSize]
      · by_cases hAll : last = true ∧ rest = []
        · obtain ⟨rfl, rfl⟩ := hAll
          refine .inr ⟨size, big, addr, rfl, by omega, rfl, rfl, ?_⟩
          simp [Target.command, State.of, hSize]
        · refine .inl ?_
          simp only [Target.command, State.of, if_neg hSize, true_and, if_neg hAll]
          rfl
  | neg =>
    obtain rfl : stk = [] := h.2
    exact .inl rfl
  | arg argNo =>
    refine .inl ?_
    rw [Command.operation, pushOp_step]
    simp only [Target.command, State.of]
    cases args[argNo]? <;> rfl
  | setArg argNo =>
    refine .inl ?_
    rcases stk with - | ⟨v, rest⟩
    · rfl
    · rfl
  | add =>
    refine .inl (binary_result (fun a b => a + b) (· + ·) rfl (fun _ => rfl) fun b _ a => ?_)
    exact ofInt_toNat (a.toNat + b.toNat) _ (BitVec.toNat_add a b)
  | sub => exact .inl (binary_result (fun a b => a - b) (· - ·) rfl (fun _ => rfl) fun b _ a =>
      ofInt_sub a b)
  | mul =>
    refine .inl (binary_result (fun a b => a * b) (· * ·) rfl (fun _ => rfl) fun b _ a => ?_)
    exact ofInt_toNat (a.toNat * b.toNat) _ (BitVec.toNat_mul a b)
  -- a division by zero fails on both sides
  | div =>
    refine .inl ?_
    rw [Command.operation, binaryOp_step fun b _ a => ?_]
    · rfl
    · by_cases hZero : b.toNat = 0
      · have hb : b = 0 := BitVec.eq_of_toNat_eq hZero
        rw [if_pos hZero, if_pos hb]
        rfl
      · have hb : b ≠ 0 := by
          rintro rfl
          exact hZero rfl
        rw [if_neg hZero, if_neg hb]
        refine congrArg Except.ok (ofInt_toNat (a.toNat / b.toNat) _ ?_)
        rw [BitVec.toNat_udiv, Nat.mod_eq_of_lt]
        exact (Nat.div_le_self _ _).trans_lt a.isLt
  | and =>
    refine .inl (binary_result (fun a b => (a &&& b : Nat)) (· &&& ·) rfl (fun _ => rfl)
      fun b _ a => ofInt_toNat _ _ ?_)
    rw [BitVec.toNat_and, Nat.mod_eq_of_lt (Nat.and_lt_two_pow _ b.isLt)]
  | or =>
    refine .inl (binary_result (fun a b => (a ||| b : Nat)) (· ||| ·) rfl (fun _ => rfl)
      fun b _ a => ofInt_toNat _ _ ?_)
    rw [BitVec.toNat_or, Nat.mod_eq_of_lt (Nat.or_lt_two_pow a.isLt b.isLt)]
  | xor =>
    refine .inl (binary_result (fun a b => (a ^^^ b : Nat)) (· ^^^ ·) rfl (fun _ => rfl)
      fun b _ a => ofInt_toNat _ _ ?_)
    rw [BitVec.toNat_xor, Nat.mod_eq_of_lt (Nat.xor_lt_two_pow a.isLt b.isLt)]
  | ge => exact .inl (binary_result (fun a b => truth (b ≤ a)) (fun a b => flag (b ≤ a)) rfl
      (fun _ => rfl) fun b _ a => ofInt_truth _)
  | gt => exact .inl (binary_result (fun a b => truth (b < a)) (fun a b => flag (b < a)) rfl
      (fun _ => rfl) fun b _ a => ofInt_truth _)
  | le => exact .inl (binary_result (fun a b => truth (a ≤ b)) (fun a b => flag (a ≤ b)) rfl
      (fun _ => rfl) fun b _ a => ofInt_truth _)
  | lt => exact .inl (binary_result (fun a b => truth (a < b)) (fun a b => flag (a < b)) rfl
      (fun _ => rfl) fun b _ a => ofInt_truth _)
  | shl =>
    refine .inl (binary_result (fun a b => (a * 2 ^ b : Nat)) t.shl rfl (fun _ => rfl)
      fun b hb a => ofInt_toNat _ _ ?_)
    rw [Target.shl, if_pos (h.2 b hb), BitVec.toNat_shiftLeft, Nat.shiftLeft_eq]
  | shr =>
    refine .inl (binary_result (fun a b => (a / 2 ^ b : Nat)) t.shr rfl (fun _ => rfl)
      fun b hb a => ofInt_toNat _ _ ?_)
    rw [Target.shr, if_pos (h.2 b hb), BitVec.toNat_ushiftRight, Nat.shiftRight_eq_div_pow,
      Nat.mod_eq_of_lt]
    exact (Nat.div_le_self _ _).trans_lt a.isLt

end

/-! ## Whole expressions -/

/-- Nothing goes wrong with the commands, as long as the operations run. -/
def Target.Covers (t : Target Reg) : List (Command Reg) → List Word × List Word → Prop
  | [], _ => True
  | cmd :: cmds, s => cmd.Covered s ∧
    ∀ s', postfixStep locationExpressionError (cmd.operation t) s = .ok s' → t.Covers cmds s'

/-- Two values that are left are added. -/
def sumTwo : List Word → List Word
  | [b, a] => [a + b]
  | vs => vs

/-- What an expression leaves: the values, the topmost first, and the piece of memory. -/
inductive Target.Leaves (t : Target Reg) (cmds : List (Command Reg)) (s : List Word × List Word) :
    List Word → Option (Word × Nat) → Prop
  | values (vs args : List Word) (h : t.reference cmds s = .ok (vs, args)) :
      t.Leaves cmds s (sumTwo vs) none
  | piece (cmds' : List (Command Reg)) (size : Nat) (big : Bool) (addr : Word) (args : List Word)
      (hCmds : cmds = cmds' ++ [.rdMem size big]) (hSize : 8 < size)
      (h : t.reference cmds' s = .ok ([addr], args)) : t.Leaves cmds s [] (some (addr, size))

/-- The commands fail as their operations do, or leave what is said. -/
def Target.RunsTo (t : Target Reg) (cmds : List (Command Reg)) (s : List Word × List Word) :
    Except Failure State → Prop
  | .error f => t.reference cmds s = .error f
  | .ok r => t.Leaves cmds s (addTwo r).stk r.piece

/-- The entries of the stack, the topmost first. -/
def Machine.left (m : Machine) : List (Option Word) := fromTop m.stkPos m.stk

/-- An expression fails as the operations do, or leaves what is said, and no access is out of
bounds. -/
def Target.EvaluatesTo (t : Target Reg) (cmds : List (Command Reg)) (s : List Word × List Word) :
    Except (Stop Failure) (Unit × Machine) → Prop
  | .error .fault => False
  | .error (.raise f) => t.reference cmds s = .error f
  | .ok (_, m) => ∃ vs : List Word, m.left = vs.map some ∧ t.Leaves cmds s vs m.piece

section

variable {t : Target Reg} {cmd : Command Reg} {cmds : List (Command Reg)}
  {s s' : List Word × List Word} {vs : List Word} {piece : Option (Word × Nat)}

theorem Target.reference_cons (t : Target Reg) (cmd : Command Reg) (cmds : List (Command Reg))
    (s : List Word × List Word) : t.reference (cmd :: cmds) s =
      (postfixStep locationExpressionError (cmd.operation t) s).bind (t.reference cmds) := rfl

theorem Target.Leaves.cons
    (hStep : postfixStep locationExpressionError (cmd.operation t) s = .ok s')
    (h : t.Leaves cmds s' vs piece) : t.Leaves (cmd :: cmds) s vs piece := by
  cases h with
  | values vs args h =>
    refine .values vs args ?_
    rw [Target.reference_cons, hStep]
    exact h
  | piece cmds' size big addr args hCmds hSize h =>
    refine .piece (cmd :: cmds') size big addr args (by rw [hCmds]; rfl) hSize ?_
    rw [Target.reference_cons, hStep]
    exact h

theorem Target.RunsTo.cons {r : Except Failure State}
    (hStep : postfixStep locationExpressionError (cmd.operation t) s = .ok s')
    (h : t.RunsTo cmds s' r) : t.RunsTo (cmd :: cmds) s r := by
  rcases r with f | r
  · show t.reference (cmd :: cmds) s = .error f
    rw [Target.reference_cons, hStep]
    exact h
  · exact Target.Leaves.cons hStep h

theorem Command.Covered.fits (h : cmd.Covered s) : cmd.Fits := by
  cases cmd with
  | setArg argNo => exact h.2
  | _ => trivial

theorem addTwo_of (s : List Word × List Word) : addTwo (State.of s) = State.of
    (sumTwo s.1, s.2) := by
  unfold addTwo sumTwo
  rcases s with ⟨- | ⟨b, - | ⟨a, - | ⟨c, rest⟩⟩⟩, args⟩ <;> rfl

theorem addTwo_piece (s : State) : (addTwo s).piece = s.piece := by
  unfold addTwo
  split <;> rfl

/-- On lists: the commands run as their operations do, and what is left is as it should be. -/
theorem runCommands_reference (t : Target Reg) (cmds : List (Command Reg))
    (s : List Word × List Word) (h : t.Covers cmds s) :
    t.Fits cmds (State.of s) ∧ t.RunsTo cmds s (t.runCommands cmds (State.of s)) := by
  induction cmds generalizing s with
  | nil =>
    refine ⟨trivial, ?_⟩
    show t.Leaves [] s (addTwo (State.of s)).stk none
    rw [addTwo_of]
    exact .values s.1 s.2 rfl
  | cons cmd cmds ih =>
    obtain ⟨hCmd, hRest⟩ := h
    have hSmall : (State.of s).stk.length + 4 < 2 ^ 32 := hCmd.1
    rw [Target.runCommands]
    rcases command_reference t cmds.isEmpty cmd hCmd with hStep |
        ⟨size, big, addr, rfl, hSize, hLast, hStk, hStep⟩
    · rw [Prod.mk.eta] at hStep
      rcases hPost : postfixStep locationExpressionError (cmd.operation t) s with f | s'
      · rw [hPost] at hStep
        rw [hStep]
        refine ⟨⟨hSmall, hCmd.fits, fun s' hOk => ?_⟩, ?_⟩
        · rw [hStep] at hOk
          cases hOk
        · show t.reference (cmd :: cmds) s = .error f
          rw [Target.reference_cons, hPost]
          rfl
      · rw [hPost] at hStep
        rw [hStep]
        obtain ⟨hFits, hRun⟩ := ih s' (hRest s' hPost)
        refine ⟨⟨hSmall, hCmd.fits, fun s'' hOk => ?_⟩, ?_⟩
        · rw [hStep] at hOk
          cases hOk
          exact hFits
        · show t.RunsTo (cmd :: cmds) s (t.runCommands cmds (State.of s'))
          exact hRun.cons hPost
    · obtain rfl : cmds = [] := List.isEmpty_iff.1 hLast
      rw [Prod.mk.eta] at hStep
      rw [hStep]
      refine ⟨⟨hSmall, hCmd.fits, fun _ _ => trivial⟩, ?_⟩
      refine .piece [] size big addr s.2 rfl hSize ?_
      rw [← hStk]
      rfl

/-- `evaluate_location_expression` leaves the stack of the postfix machine, but for the sum of two
values and for a piece of memory, and no access is out of bounds. -/
theorem evaluate_reference (t : Target Reg) (cmds : List (Command Reg)) (args : List Word)
    (h : t.Covers cmds ([], args)) :
    t.EvaluatesTo cmds ([], args) (t.evaluate cmds args) := by
  obtain ⟨hFits, hRun⟩ := runCommands_reference t cmds ([], args) h
  have hDoes := evaluate_does t cmds args hFits
  unfold Does Safely at hDoes
  show t.EvaluatesTo cmds ([], args) ((t.loop cmds >>= fun _ => addLeft) (Machine.init args))
  have hSpec : t.evaluateLocationExpression cmds args =
      (t.runCommands cmds (State.of ([], args))).map addTwo := rfl
  rw [hSpec] at hDoes
  split at hDoes
  · next u m hEval =>
    rw [hEval]
    obtain ⟨s', hOk, hShows⟩ := hDoes
    rcases hCommands : t.runCommands cmds (State.of ([], args)) with f | r
    · rw [hCommands] at hOk
      cases hOk
    · rw [hCommands] at hOk hRun
      obtain rfl : addTwo r = s' := Except.ok.inj hOk
      refine ⟨(addTwo r).stk, hShows.values, ?_⟩
      rw [hShows.piece, addTwo_piece]
      exact hRun
  · next f hEval =>
    rw [hEval]
    rcases hCommands : t.runCommands cmds (State.of ([], args)) with e | r
    · rw [hCommands] at hDoes hRun
      obtain rfl : e = f := Except.error.inj hDoes
      exact hRun
    · rw [hCommands] at hDoes
      cases hDoes
  · exact hDoes.elim

end

/-! ## Two values -/

/-- Registers and memory that cannot be read. -/
def blankTarget : Target Unit where
  readRegValue _ := .error Err.invContext
  contextReadMem _ _ := .error Err.invAddress
  frame := none
  shlOver _ _ := 0
  shrOver _ _ := 0

/-- 3 and 4 and their sum. -/
theorem evaluate_reference_sum :
    blankTarget.Covers [.number 3, .number 4, .add] ([], []) ∧
      blankTarget.EvaluatesTo [.number 3, .number 4, .add] ([], [])
        (blankTarget.evaluate [.number 3, .number 4, .add] []) := by
  have hCovers : blankTarget.Covers [.number 3, .number 4, .add] ([], []) := by
    refine ⟨⟨by decide, trivial⟩, fun s hs => ?_⟩
    cases hs
    refine ⟨⟨by decide, trivial⟩, fun s hs => ?_⟩
    cases hs
    exact ⟨⟨by decide, trivial⟩, fun _ _ => trivial⟩
  exact ⟨hCovers, evaluate_reference blankTarget _ [] hCovers⟩

/-- An expression leaves the stack of the postfix machine, or raises an exception. -/
def FollowsPostfix (t : Target Reg) (cmds : List (Command Reg)) (args : List Word) :
    Except (Stop Failure) (Unit × Machine) → Prop
  | .error .fault => False
  | .error (.raise _) => True
  | .ok (_, m) => ∃ vs args', t.reference cmds ([], args) = .ok (vs, args') ∧ m.left = vs.map some

/-- Of 1 and 2 only the sum is left. -/
theorem not_followsPostfix : ¬ ∀ (t : Target Unit) cmds args,
    FollowsPostfix t cmds args (t.evaluate cmds args) := by
  intro hAll
  obtain ⟨vs, args', hRun, hLeft⟩ := hAll blankTarget [.number 1, .number 2] []
  cases hRun
  cases hLeft

end TcfAgent.Location
