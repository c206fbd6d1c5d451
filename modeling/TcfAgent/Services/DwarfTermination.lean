import TcfAgent.Lib.Oracle
import TcfAgent.Services.DwarfJumps

/-!
# Where the transformation of an expression ends

`add_expression` of `services/dwarfecomp.c` is a loop over the operations of an expression, and
calls itself for the expressions that some operations refer to. The loop stays where it is at a
branch whose offset is 0.

Main results:

* `round_advances`    — a round of the loop advances unless it is at such a branch;
* `addExpression_ends` — which calls of `add_expression` return, or raise something.
-/

namespace TcfAgent.DwarfTransform

open TcfAgent.Lib TcfAgent.Dwarf

section

variable {Obj Val : Type}

/-- What is asked of the debug information, of the stack frame and of the context is answered,
or an exception is raised. -/
structure Env.Returns (env : Env Obj Val) : Prop where
  framePc        : Ends .fuel env.framePc
  relocate       : ∀ info pos size value, Ends .fuel (env.relocate info pos size value)
  relocateLink   : ∀ info pos size value, Ends .fuel (env.relocateLink info pos size value)
  runTimeAddress : ∀ obj sect addr, Ends .fuel (env.runTimeAddress obj sect addr)
  tlsAddress     : ∀ obj, Ends .fuel (env.tlsAddress obj)
  functionAt     : ∀ obj pc, Ends .fuel (env.functionAt obj pc)
  frameBase      : ∀ obj, Ends .fuel (env.frameBase obj)
  expressionList : ∀ pv, Ends .fuel (env.expressionList pv)
  location       : ∀ obj, Ends .fuel (env.location obj)
  constValue     : ∀ obj, Ends .fuel (env.constValue obj)
  symbolId       : ∀ obj, Ends .fuel (env.symbolId obj)
  callSites      : ∀ obj addr size id, Ends .fuel (env.callSites obj addr size id)

/-- A call of `add_expression`: the expression and the code range. -/
abbrev Call (Obj : Type) := ExprInfo Obj × Range

variable (env : Env Obj Val)

/-- `add_expression`, as an oracle for the calls of itself. -/
def answers (fuel : Nat) (c : Call Obj) : M (Code × Range) := addExpression env fuel c.1 c.2

/-- The operation at `pos` is a branch whose offset is 0. -/
def ZeroBranch (info : ExprInfo Obj) (pos : Nat) : Prop :=
  ∃ op, info.byte pos = .ok op ∧ opCase op = .branch ∧ info.jumpOffs env pos = .ok 0

/-- The loop of a call of `add_expression` gets to `s`. -/
inductive Reached (c : Call Obj) : LoopState → Prop
  | start (h : (env.unit c.1.object).bigEndian = env.bigEndian) : Reached c { range := c.2 }
  | round {fuel : Nat} {s s' : LoopState} (h : Reached c s)
    (hRound : Round env (addExpression env fuel) c.1 s s') : Reached c s'

/-- The operation that the loop of `c` gets to calls `add_expression` for `d`. -/
def Nested (c d : Call Obj) : Prop :=
  ∃ fuel s, Reached env c s ∧ s.exprPos < c.1.exprSize ∧
    Asked .fuel (fun o => addOp env (Function.curry o) c.1 s) (answers env fuel) d

/-- The loop gets to no branch with offset 0, in the expression or in one that is nested in
it, and the nesting has an end. -/
inductive Grounded : Call Obj → Prop
  | intro {c : Call Obj}
    (advances : ∀ s, Reached env c s → s.exprPos < c.1.exprSize → ¬ ZeroBranch env c.1 s.exprPos)
    (nested : ∀ d, Nested env c d → Grounded d) : Grounded c

end

/-! ## Operations without nested expressions -/

section

variable {Obj Val : Type} {env : Env Obj Val} {info : ExprInfo Obj} {pos n : Nat} {op : UInt8}

@[simp] theorem ends_invDwarf {α : Type} (msg : String) : Ends .fuel (invDwarf msg : M α) :=
  fun h => by cases h

@[simp] theorem ends_notAvailable {α : Type} : Ends .fuel (notAvailable : M α) :=
  fun h => by cases h

@[simp] theorem ends_byte : Ends .fuel (info.byte pos) := by
  unfold ExprInfo.byte
  split <;> simp

@[simp] theorem ends_slice : Ends .fuel (info.slice pos n) := by simp [ExprInfo.slice]

@[simp] theorem ends_copy : Ends .fuel (info.copy pos n) := by simp [ExprInfo.copy]

@[simp] theorem ends_leb : Ends .fuel (info.leb pos) := by
  unfold ExprInfo.leb
  split <;> simp

@[simp] theorem ends_dioRead {big : Bool} : Ends .fuel (dioRead big info pos n) := by
  simp [dioRead]

@[simp] theorem ends_dioLeb : Ends .fuel (dioLeb info pos) := by
  unfold dioLeb
  split <;> simp

@[simp] theorem ends_checkFrame : Ends .fuel (checkFrame env) := by simp [checkFrame]

@[simp] theorem ends_jumpOffs : Ends .fuel (info.jumpOffs env pos) := by
  simp [ExprInfo.jumpOffs]

@[simp] theorem ends_isPushTls : Ends .fuel (isPushTls info pos) := by simp [isPushTls]

@[simp] theorem ends_copyOp : Ends .fuel (copyOp info op pos n) := by simp [copyOp]

@[simp] theorem ends_lebOp : Ends .fuel (lebOp info op pos) := by simp [lebOp]

@[simp] theorem ends_lebOp2 : Ends .fuel (lebOp2 info op pos) := by simp [lebOp2]

@[simp] theorem ends_opLeb : Ends .fuel (opLeb info op pos) := by simp [opLeb]

@[simp] theorem ends_opImplicitValue : Ends .fuel (opImplicitValue info pos) := by
  simp [opImplicitValue]

@[simp] theorem ends_opOther : Ends .fuel (opOther op pos) := by simp [opOther]

@[simp] theorem ends_tlsOffset : Ends .fuel (tlsOffset info pos) := by simp [tlsOffset]

@[simp] theorem ends_getType {type : Nat} : Ends .fuel (getType env info type) := by
  simp only [getType]
  split
  · simp
  · split
    · simp
    · split <;> simp

@[simp] theorem ends_opGnuConstType : Ends .fuel (opGnuConstType env info pos) := by
  simp [opGnuConstType]

@[simp] theorem ends_opGnuRegvalType : Ends .fuel (opGnuRegvalType env info pos) := by
  simp [opGnuRegvalType]

@[simp] theorem ends_opGnuDerefType : Ends .fuel (opGnuDerefType env info pos) := by
  simp [opGnuDerefType]

@[simp] theorem ends_opGnuConvert : Ends .fuel (opGnuConvert env info pos) := by
  simp [opGnuConvert]

variable {range : Range}

@[simp] theorem ends_keepRange {r : M (Code × Nat)} :
    Ends .fuel (keepRange range r) ↔ Ends .fuel r := by
  simp [keepRange]

@[simp] theorem ends_above {addr : Nat} : Ends .fuel (range.above addr) := by
  simp [Range.above]

@[simp] theorem ends_below {last : Nat} : Ends .fuel (range.below last) := by
  simp [Range.below]

@[simp] theorem ends_addCodeRange : Ends .fuel (addCodeRange info range) := by
  simp [addCodeRange]

@[simp] theorem ends_constBytes {unit : CompUnit} {pv : ConstValue} :
    Ends .fuel (constBytes unit pv) := by
  cases pv <;> simp [constBytes]

@[simp] theorem ends_fbregRegister {offs : Int} : Ends .fuel (fbregRegister env info offs) := by
  simp [fbregRegister]

section

variable (hEnv : env.Returns)
include hEnv

theorem ends_dioReadAddressX : Ends .fuel (dioReadAddressX env info pos n) := by
  simp [dioReadAddressX, hEnv.relocateLink]

theorem ends_opAddr : Ends .fuel (opAddr env info pos) := by
  simp [opAddr, hEnv.relocate, hEnv.runTimeAddress]

theorem ends_getFramePc : Ends .fuel (getFramePc env) := by
  simp [getFramePc, hEnv.framePc]

theorem ends_opPushTlsAddress : Ends .fuel (opPushTlsAddress env info pos) := by
  simp [opPushTlsAddress, hEnv.tlsAddress]

theorem ends_callReference : Ends .fuel (callReference env info op pos) := by
  simp [callReference, ends_dioReadAddressX hEnv]

theorem ends_opVariableValueOrClass : Ends .fuel (opVariableValueOrClass env info pos) := by
  unfold opVariableValueOrClass
  split
  · simp
  · simp only [opGnuVariableValue, ends_bind, ends_dioReadAddressX hEnv, true_and]
    intro id _
    split
    · simp
    · simp [hEnv.symbolId]

end

/-! ## Operations with nested expressions -/

/-- What is computed from the calls of `add_expression`. -/
abbrev FromCalls {α : Type} (F : (Call Obj → M (Code × Range)) → M α) : Prop :=
  Sequential Error.fuel F

theorem fromCalls_rec (info : ExprInfo Obj) (range : Range) :
    FromCalls fun o => Function.curry o info range := sequential_ask (info, range)

theorem addFbregExpression_calls (offs : Int) (range : Range) :
    FromCalls fun o => addFbregExpression env (Function.curry o) info offs range := by
  refine Sequential.bind (.done ends_fbregRegister) fun reg => ?_
  cases reg with
  | some code => exact .done (by simp)
  | none => exact (fromCalls_rec info range).bind fun r => .done (by simp)

theorem addListed_calls (fbreg : Option Int) (info : ExprInfo Obj) (range : Range) :
    FromCalls fun o => addListed env (Function.curry o) fbreg info range := by
  cases fbreg with
  | none => exact fromCalls_rec info range
  | some offs => exact addFbregExpression_calls offs range

theorem addCases_calls (fbreg : Option Int) (range : Range) (infos : List (ExprInfo Obj)) :
    FromCalls fun o => addCases env (Function.curry o) fbreg range infos := by
  induction infos with
  | nil => exact .done (by simp)
  | cons info infos ih =>
    simp only [addCases]
    split
    · refine Sequential.bind (.done ends_addCodeRange) fun inner => ?_
      refine (addListed_calls fbreg info inner).bind fun r => ?_
      refine Sequential.bind ?_ fun rest => .done (by simp)
      split
      · exact .done (by simp)
      · exact ih
    · exact ih

theorem addExpressionList_calls (hEnv : env.Returns) (infos : List (ExprInfo Obj))
    (fbreg : Option Int) (range : Range) :
    FromCalls fun o => addExpressionList env (Function.curry o) infos fbreg range := by
  cases infos with
  | nil => exact .done (by simp)
  | cons info infos =>
    simp only [addExpressionList]
    split
    · split
      · refine Sequential.bind (.done (ends_getFramePc hEnv)) fun pc => ?_
        split
        · exact .done (by simp)
        · exact (addListed_calls _ _ _).bind fun r => .done (by simp)
      · exact (addCases_calls _ _ _).bind fun cases => .done (by simp)
    · exact addListed_calls _ _ _

section

variable (hEnv : env.Returns) (range : Range)
include hEnv

theorem opFbreg_calls : FromCalls fun o => opFbreg env (Function.curry o) info pos range := by
  refine Sequential.bind (.done ends_leb) fun raw => ?_
  simp only
  cases env.parentFunction info.object with
  | none => exact .done (by simp)
  | some parent =>
    have hBase := hEnv.frameBase parent
    simp only
    split
    · refine Sequential.bind (.done (hEnv.expressionList _)) fun infos => ?_
      exact (addExpressionList_calls hEnv _ _ _).bind fun r => .done (by simp)
    · refine Sequential.bind (.done (ends_getFramePc hEnv)) fun pc => ?_
      refine Sequential.bind (.done (hEnv.functionAt _ _)) fun func => ?_
      cases func with
      | none => exact .done (by simp)
      | some func =>
        have hBaseAt := hEnv.frameBase func
        simp only
        split
        · refine Sequential.bind (.done (hEnv.expressionList _)) fun infos => ?_
          split
          · exact .done (by simp)
          · exact (addFbregExpression_calls _ _).bind fun r => .done (by simp)
        · exact .done (by simp)
        · rename_i hFail
          exact .done (by simpa [hFail] using hBaseAt)
    · exact .done (by simp)
    · rename_i hFail
      exact .done (by simpa [hFail] using hBase)

theorem implicitTarget_calls (obj : Obj) (unit : CompUnit) :
    FromCalls fun o => implicitTarget env (Function.curry o) obj unit range := by
  simp only [implicitTarget]
  split
  · refine Sequential.bind (.done (hEnv.location _)) fun pv => ?_
    refine Sequential.bind (.done (hEnv.expressionList _)) fun infos => ?_
    exact addExpressionList_calls hEnv _ _ _
  · exact .done (by simp [hEnv.constValue])

theorem opImplicitPointer_calls :
    FromCalls fun o => opImplicitPointer env (Function.curry o) info pos range := by
  refine Sequential.bind (.done ends_byte) fun op => ?_
  refine Sequential.bind (.done (ends_dioReadAddressX hEnv)) fun id => ?_
  refine Sequential.bind (.done ends_dioLeb) fun offset => ?_
  split
  · exact .done (by simp)
  · exact (implicitTarget_calls hEnv _ _ _).bind fun r => .done (by simp)

theorem opCall_calls : FromCalls fun o => opCall env (Function.curry o) info pos range := by
  refine Sequential.bind (.done ends_byte) fun op => ?_
  refine Sequential.bind (.done (ends_callReference hEnv)) fun ref => ?_
  simp only
  split
  · exact .done (by simp)
  · refine Sequential.bind (.done (hEnv.location _)) fun pv => ?_
    refine Sequential.bind (.done (hEnv.expressionList _)) fun infos => ?_
    exact (addExpressionList_calls hEnv _ _ _).bind fun r => .done (by simp)

omit hEnv in
theorem opEntryValue_calls : FromCalls fun o => opEntryValue (Function.curry o) info pos range := by
  refine Sequential.bind (.done ends_leb) fun raw => ?_
  exact (fromCalls_rec _ _).bind fun r => .done (by simp)

theorem opParameterRef_calls :
    FromCalls fun o => opParameterRef env (Function.curry o) info pos range := by
  refine Sequential.bind (.done ends_dioRead) fun x => ?_
  refine Sequential.bind (.done (hEnv.callSites _ _ _ _)) fun sites => ?_
  simp only
  split
  · exact .done (by simp)
  · exact (addExpressionList_calls hEnv _ _ _).bind fun r => .done (by simp)

theorem addCase_calls : FromCalls fun o => addCase env (Function.curry o) info op pos range := by
  have hFrame {F : (Call Obj → M (Code × Range)) → M (Code × Nat × Range)} (hF : FromCalls F) :
      FromCalls fun o => checkFrame env >>= fun _ => F o :=
    Sequential.bind (.done ends_checkFrame) fun _ => hF
  simp only [addCase]
  cases opCase op with
  | fbreg => exact hFrame (opFbreg_calls hEnv range)
  | implicitPointer => exact opImplicitPointer_calls hEnv range
  | call => exact opCall_calls hEnv range
  | entryValue => exact hFrame (opEntryValue_calls range)
  | parameterRef => exact hFrame (opParameterRef_calls hEnv range)
  | addr => exact .done (ends_keepRange.2 (ends_opAddr hEnv))
  | pushTlsAddress => exact .done (ends_keepRange.2 (ends_opPushTlsAddress hEnv))
  | variableValue => exact .done (ends_keepRange.2 (ends_opVariableValueOrClass hEnv))
  | basereg => exact hFrame (.done (ends_keepRange.2 ends_copyOp))
  | breg => exact hFrame (.done (ends_keepRange.2 ends_lebOp))
  | bregx => exact hFrame (.done (ends_keepRange.2 ends_lebOp2))
  | _ => exact .done (ends_keepRange.2 (by simp))

theorem addOp_calls (s : LoopState) :
    FromCalls fun o => addOp env (Function.curry o) info s := by
  refine Sequential.bind (.done ends_byte) fun op => ?_
  refine Sequential.bind (.done (by simp)) fun offs => ?_
  split
  · exact .done (by simp)
  · exact (addCase_calls hEnv _).bind fun r => .done (by simp)

end

end

/-! ## The loop -/

section

variable {Obj Val : Type} {env : Env Obj Val} {info : ExprInfo Obj} {fuel : Nat}

/-- A round at a branch with offset 0 changes nothing. -/
theorem addOp_zeroBranch (rec : Rec Obj) {s : LoopState} (h : ZeroBranch env info s.exprPos) :
    addOp env rec info s = .ok s := by
  obtain ⟨op, hOp, hBranch, hOffs⟩ := h
  simp only [addOp, hOp, hBranch, hOffs, ↓reduceIte, bind, Except.bind, and_self]
  rfl

/-- A round advances unless it is at a branch with offset 0. -/
theorem round_advances {s s' : LoopState} (h : Round env (addExpression env fuel) info s s') :
    s.exprPos < s'.exprPos ↔ ¬ ZeroBranch env info s.exprPos := by
  constructor
  · intro hLt hZero
    have hSame := (addOp_zeroBranch (addExpression env fuel) hZero).symm.trans h.2
    cases hSame
    exact lt_irrefl _ hLt
  · intro hZero
    obtain ⟨op, hOp, offs, hOffs, hGo⟩ : ∃ op, info.byte s.exprPos = .ok op ∧ ∃ offs,
        (if opCase op = .branch then info.jumpOffs env s.exprPos else pure 0) = .ok offs ∧
        ¬ (opCase op = .branch ∧ offs = 0) := by
      have hOk := h.2
      simp only [addOp, bind_eq_ok] at hOk
      obtain ⟨op, hOp, offs, hOffs, -⟩ := hOk
      refine ⟨op, hOp, offs, hOffs, ?_⟩
      rintro ⟨hBranch, rfl⟩
      rw [if_pos hBranch] at hOffs
      exact hZero ⟨op, hOp, hBranch, hOffs⟩
    have hOk := h.2
    simp only [addOp, hOp, hOffs, bind, Except.bind, if_neg hGo] at hOk
    split at hOk
    · cases hOk
    · rename_i r hCase
      cases hOk
      exact (addCase_spec (addExpression_shape env fuel) hCase).1

variable (hEnv : env.Returns)
include hEnv

theorem addLoop_mono {o o' : Call Obj → M (Code × Range)} (h : ∀ c, Le .fuel (o c) (o' c))
    {n m : Nat} (hLe : n ≤ m) (s : LoopState) :
    Le .fuel (addLoop env (Function.curry o) info n s)
      (addLoop env (Function.curry o') info m s) := by
  induction n generalizing m s with
  | zero => exact .inl rfl
  | succ n ih =>
    obtain ⟨m, rfl⟩ : ∃ k, m = k + 1 := ⟨m - 1, by omega⟩
    simp only [addLoop]
    split
    · exact ((addOp_calls hEnv s).mono h).bind fun s' => ih (by omega) s'
    · exact .refl _

/-- More fuel changes no result. -/
theorem answers_mono (n m : Nat) (hLe : n ≤ m) (c : Call Obj) :
    Le .fuel (answers env n c) (answers env m c) := by
  induction n generalizing m c with
  | zero => exact .inl rfl
  | succ n ih =>
    obtain ⟨m, rfl⟩ : ∃ k, m = k + 1 := ⟨m - 1, by omega⟩
    simp only [answers, addExpression]
    split
    · exact .refl _
    · exact (addLoop_mono hEnv (ih m (by omega)) (by omega) _).bind fun s => .refl _

omit hEnv in
theorem curry_answers (n : Nat) : Function.curry (answers env n) = addExpression env n := rfl

theorem addOp_mono {n m : Nat} (hLe : n ≤ m) (s : LoopState) :
    Le .fuel (addOp env (addExpression env n) info s)
      (addOp env (addExpression env m) info s) := by
  have hCalls : FromCalls fun o => addOp env (Function.curry o) info s := addOp_calls hEnv s
  simpa only [curry_answers] using hCalls.mono (answers_mono hEnv n m hLe)

variable {c : Call Obj}

/-- A call that returns or raises something has come from every state it gets to to its
end. -/
theorem addLoop_reached (h : Ends .fuel (answers env (fuel + 1) c))
    {s : LoopState} (hReached : Reached env c s) :
    ∃ n, Ends .fuel (addLoop env (addExpression env fuel) c.1 n s) := by
  induction hReached with
  | start hEndian =>
    refine ⟨fuel, ?_⟩
    simp only [answers, addExpression, ne_eq, hEndian, not_true_eq_false, ↓reduceIte] at h
    exact (ends_bind.1 h).1
  | @round m s s' _ hRound ih =>
    obtain ⟨n, hn⟩ := ih
    cases n with
    | zero => exact absurd rfl hn
    | succ n =>
      rw [addLoop, if_pos hRound.1, ends_bind] at hn
      have hSame := eq_of_ends (fun n m hLe => addOp_mono hEnv hLe s) hn.1
        (show Ends .fuel (addOp env (addExpression env m) c.1 s) by
          rw [hRound.2]
          exact ends_ok s')
      exact ⟨n, hn.2 s' (hSame.trans hRound.2)⟩

theorem grounded_of_ends (h : Ends .fuel (answers env fuel c)) :
    Grounded env c := by
  induction fuel generalizing c with
  | zero => exact absurd rfl h
  | succ fuel ih =>
    refine .intro (fun s hReached hMore hZero => ?_) fun d hNested => ?_
    · obtain ⟨n, hn⟩ := addLoop_reached hEnv h hReached
      -- the loop would stay at the branch until the fuel is used up
      have hStays : ∀ n, addLoop env (addExpression env fuel) c.1 n s = .error .fuel := by
        intro n
        induction n with
        | zero => rfl
        | succ n ihN =>
          rw [addLoop, if_pos hMore, addOp_zeroBranch _ hZero]
          exact ihN
      exact hn (hStays n)
    · obtain ⟨m, s, hReached, hMore, hAsked⟩ := hNested
      obtain ⟨n, hn⟩ := addLoop_reached hEnv h hReached
      have hOp : Ends .fuel (addOp env (addExpression env fuel) c.1 s) := by
        cases n with
        | zero => exact absurd rfl hn
        | succ n =>
          rw [addLoop, if_pos hMore, ends_bind] at hn
          exact hn.1
      have hAssertion : Error.assertion ≠ .fuel := by decide
      have hOverrun : Error.overrun ≠ .fuel := by decide
      exact ih ((addOp_calls hEnv s).asked_ends (answers_mono hEnv) hAssertion hOverrun
        (by decide) hAsked hOp)

/-- From every state that the loop gets to it gets to its end, when the calls in the
operations have an end. -/
theorem addLoop_ends
    (hClean : ∀ s, Reached env c s → s.exprPos < c.1.exprSize → ¬ ZeroBranch env c.1 s.exprPos)
    (hNested : ∀ d, Nested env c d → ∃ n, Ends .fuel (answers env n d)) {s : LoopState}
    (hReached : Reached env c s) :
    ∃ n, Ends .fuel (addLoop env (addExpression env n) c.1 n s) := by
  -- on the number of bytes that are left
  induction hLeft : c.1.exprSize - s.exprPos using Nat.strong_induction_on generalizing s with
  | _ left ih =>
    by_cases hMore : s.exprPos < c.1.exprSize
    · obtain ⟨n, hn⟩ := (addOp_calls hEnv s).ends (answers_mono hEnv)
        fun d ⟨n, hAsked⟩ => hNested d ⟨n, s, hReached, hMore, hAsked⟩
      have hn : Ends .fuel (addOp env (addExpression env n) c.1 s) := hn
      cases hOp : addOp env (addExpression env n) c.1 s with
      | error e =>
        rw [hOp] at hn
        have hLater := (addOp_mono hEnv (Nat.le_succ n) s).eq (by rw [hOp]; exact hn)
        refine ⟨n + 1, ?_⟩
        rw [addLoop, if_pos hMore, ← hLater, hOp]
        exact hn
      | ok s' =>
        have hRound : Round env (addExpression env n) c.1 s s' := ⟨hMore, hOp⟩
        have hAdvance := (round_advances hRound).2 (hClean s hReached hMore)
        obtain ⟨m, hm⟩ := ih (c.1.exprSize - s'.exprPos) (by omega) (hReached.round hRound) rfl
        have hEnough : n ≤ max n m + 1 := Nat.le_succ_of_le (le_max_left n m)
        have hLater := (addOp_mono hEnv hEnough s).eq (by rw [hOp]; exact ends_ok s')
        refine ⟨max n m + 1, ?_⟩
        rw [addLoop, if_pos hMore, ← hLater, hOp]
        exact (addLoop_mono hEnv (answers_mono hEnv m _ (Nat.le_succ_of_le (le_max_right n m)))
          (le_max_right n m) s').ends hm
    · refine ⟨1, ?_⟩
      rw [addLoop, if_neg hMore]
      exact ends_pure s

theorem ends_of_grounded (h : Grounded env c) :
    ∃ fuel, Ends .fuel (answers env fuel c) := by
  induction h with
  | @intro c hClean _ ih =>
    by_cases hEndian : (env.unit c.1.object).bigEndian = env.bigEndian
    · obtain ⟨n, hn⟩ := addLoop_ends hEnv hClean ih (.start hEndian)
      refine ⟨n + 1, ?_⟩
      simp only [answers, addExpression, ne_eq, hEndian, not_true_eq_false, ↓reduceIte]
      exact ends_bind.2 ⟨hn, fun s _ => ends_pure _⟩
    · refine ⟨1, ?_⟩
      simp only [answers, addExpression, ne_eq, hEndian, not_false_eq_true, ↓reduceIte]
      exact ends_error.2 (by decide)

/-- A call of `add_expression` returns or raises something exactly when its loop, and those of
the calls nested in it, get to no branch with offset 0 and the nesting has an end. A round
advances exactly when it is not at such a branch. -/
theorem addExpression_ends :
    (∀ (info : ExprInfo Obj) (range : Range),
      (∃ fuel, Ends .fuel (addExpression env fuel info range)) ↔ Grounded env (info, range)) ∧
    ∀ (info : ExprInfo Obj) (fuel : Nat) (s s' : LoopState),
      Round env (addExpression env fuel) info s s' →
        (s.exprPos < s'.exprPos ↔ ¬ ZeroBranch env info s.exprPos) := by
  refine ⟨fun info range => ⟨?_, ?_⟩, fun info fuel s s' => round_advances⟩
  · rintro ⟨fuel, h⟩
    exact grounded_of_ends (c := (info, range)) hEnv h
  · exact ends_of_grounded hEnv

end

/-! ## Expressions without an end -/

theorem plainEnv_returns : plainEnv.Returns := by
  constructor <;> simp [plainEnv]

/-- The expression with a branch over one operation does have an end. -/
theorem addExpression_ends_skipConvert : Grounded plainEnv (skipConvert, ⟨0, 0⟩) :=
  ((addExpression_ends plainEnv_returns).1 skipConvert ⟨0, 0⟩).1
    ⟨10, by rw [skipConvert_accepted]; exact ends_ok _⟩

/-- `OP_skip` to the next operation. -/
def skipNothing : ExprInfo Unit where
  object := ()
  exprAddr := [0x2f, 0, 0]
  exprSize := 3
  hSize := by decide

/-- `OP_call2` of the object that has this expression as its location. -/
def callSelf : ExprInfo Unit where
  object := ()
  exprAddr := [0x98, 0, 0]
  exprSize := 3
  hSize := by decide

def callEnv : Env Unit Unit :=
  { plainEnv with
    findObject := fun _ _ => some ()
    location := fun _ => .ok ()
    expressionList := fun _ => .ok [callSelf] }

theorem addOp_callSelf {rec : Rec Unit} (h : rec callSelf ⟨0, 0⟩ = .error .fuel) :
    addOp callEnv rec callSelf { range := ⟨0, 0⟩ } = .error .fuel := by
  have hCall : opCall callEnv rec callSelf 0 ⟨0, 0⟩ = .error .fuel := by
    show (rec callSelf ⟨0, 0⟩ >>= fun r => _) = _
    rw [h]
    rfl
  show (opCall callEnv rec callSelf 0 ⟨0, 0⟩ >>= fun r => _) = _
  rw [hCall]
  rfl

theorem callSelf_stops (fuel : Nat) :
    addExpression callEnv fuel callSelf ⟨0, 0⟩ = .error .fuel := by
  induction fuel with
  | zero => rfl
  | succ fuel ih =>
    cases fuel with
    | zero => rfl
    | succ fuel =>
      show (addOp callEnv (addExpression callEnv (fuel + 1)) callSelf _ >>= fun s =>
        addLoop callEnv _ callSelf fuel s) >>= _ = _
      rw [addOp_callSelf ih]
      rfl

/-- The loop stays at the branch; the other expression never gets to the end of its call. -/
theorem never_ends :
    (¬ ∃ fuel, Ends .fuel (addExpression plainEnv fuel skipNothing ⟨0, 0⟩)) ∧
      ¬ ∃ fuel, Ends .fuel (addExpression callEnv fuel callSelf ⟨0, 0⟩) := by
  refine ⟨?_, ?_⟩
  · rintro ⟨fuel, h⟩
    have hZero : ZeroBranch plainEnv skipNothing 0 :=
      ⟨0x2f, rfl, by decide, by decide⟩
    have hGrounded := grounded_of_ends (c := (skipNothing, ⟨0, 0⟩)) plainEnv_returns h
    cases hGrounded with
    | intro hClean _ => exact hClean { range := ⟨0, 0⟩ } (.start rfl) (by decide) hZero
  · rintro ⟨fuel, h⟩
    exact h (callSelf_stops fuel)

end TcfAgent.DwarfTransform
