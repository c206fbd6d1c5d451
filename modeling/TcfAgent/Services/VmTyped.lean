import TcfAgent.Lib.Fallible
import TcfAgent.Services.VmStack

/-!
# Values of base types

`OP_GNU_convert` and `OP_GNU_entry_value` of `services/vm.c` against what the numbers stand for,
and against the operations that `dwarfecomp.c` puts in the place of `OP_GNU_convert`.

Main results:

* `convert_eq`       — what `OP_GNU_convert` leaves, in terms of numbers;
* `convert_agrees`   — where that is the number of the type, and what the other operations leave;
* `entry_value_read` — where an entry value is the number that its bytes denote.
-/

namespace TcfAgent.VmEval

open TcfAgent.Lib TcfAgent.Location TcfAgent.Dwarf
open TcfAgent.Vm (TypeClass)
open TcfAgent.DwarfTransform (isUnsigned isSigned)

variable {Frame : Type}

/-! ## Conversions -/

/-- The number of a type of `n` bytes, without its sign or with it. -/
def converted (signed : Bool) (n : Nat) (v : Word) : Word :=
  if signed then (v.setWidth (8 * n)).signExtend 64 else BitVec.ofNat 64 (v.toNat % 2 ^ (8 * n))

section

variable (env : Env Frame) (frame : Frame) {n : Nat}

theorem signBit_eq (hPos : 1 ≤ n) (hLe : n ≤ 8) :
    signBit env frame 32 n = BitVec.twoPow 64 (8 * n - 1) := by
  have hWidth : (BitVec.ofNat 32 (n * 8) - 1).toNat = 8 * n - 1 := by
    interval_cases n <;> rfl
  have hSmall : (BitVec.ofNat 64 (8 * n - 1)).toNat = 8 * n - 1 := by
    rw [BitVec.toNat_ofNat]
    omega
  unfold signBit Target.shl
  rw [hWidth, hSmall, if_pos (by omega), BitVec.twoPow]
  rfl

end

variable {k : Nat}

theorem twoPow_sub_one (hk : k < 64) :
    BitVec.twoPow 64 k - 1 = BitVec.ofNat 64 (2 ^ k - 1) := by
  have hLt : 2 ^ k < 2 ^ 64 := Nat.pow_lt_pow_right (by omega) hk
  have hPos : 0 < 2 ^ k := Nat.two_pow_pos k
  have hMod : 2 ^ k % 2 ^ 64 = 2 ^ k := Nat.mod_eq_of_lt hLt
  refine BitVec.eq_of_toNat_eq ?_
  rw [BitVec.toNat_sub, BitVec.toNat_twoPow, BitVec.toNat_ofNat, hMod]
  have hOne : (1 : Word).toNat = 1 := rfl
  rw [hOne]
  omega

theorem getLsbD_mask (i : Nat) (hi : i < 64) :
    (BitVec.ofNat 64 (2 ^ k - 1)).getLsbD i = decide (i < k) := by
  rw [BitVec.getLsbD_ofNat, Nat.testBit_two_pow_sub_one]
  simp [hi]

theorem and_mask (v : Word) (hk : k < 64) :
    v &&& (BitVec.twoPow 64 k - 1) = BitVec.ofNat 64 (v.toNat % 2 ^ k) := by
  rw [twoPow_sub_one hk]
  refine BitVec.eq_of_toNat_eq ?_
  have hLt : 2 ^ k < 2 ^ 64 := Nat.pow_lt_pow_right (by omega) hk
  have hMod : v.toNat % 2 ^ k < 2 ^ k := Nat.mod_lt _ (Nat.two_pow_pos k)
  rw [BitVec.toNat_and, BitVec.toNat_ofNat, BitVec.toNat_ofNat, Nat.mod_eq_of_lt (by omega),
    Nat.mod_eq_of_lt (by omega), Nat.and_two_pow_sub_one_eq_mod]

/-- The sign is spread over the upper bits. -/
theorem spread_sign (v : Word) (hk : k < 64) :
    (if v &&& BitVec.twoPow 64 k ≠ 0 then v ||| ~~~(BitVec.twoPow 64 k - 1)
      else v &&& (BitVec.twoPow 64 k - 1)) = (v.setWidth (k + 1)).signExtend 64 := by
  have hBit : v &&& BitVec.twoPow 64 k ≠ 0 ↔ v.getLsbD k = true := by
    rw [BitVec.and_twoPow]
    cases v.getLsbD k with
    | false => simp
    | true =>
      have hNe : BitVec.twoPow 64 k ≠ 0 := by
        intro hZero
        have hOne := congrArg (fun w => BitVec.getLsbD w k) hZero
        simp [hk] at hOne
      simpa using hNe
  have hMsb : (v.setWidth (k + 1)).msb = v.getLsbD k := by
    rw [BitVec.msb_setWidth]
    simp
  refine BitVec.eq_of_getLsbD_eq fun i hi => ?_
  rw [BitVec.getLsbD_signExtend, hMsb, twoPow_sub_one hk, BitVec.getLsbD_setWidth]
  by_cases hSign : v.getLsbD k = true
  · rw [if_pos (hBit.2 hSign), BitVec.getLsbD_or, BitVec.getLsbD_not, getLsbD_mask i hi]
    rcases Nat.lt_trichotomy i k with hLt | rfl | hGt
    · simp [hi, hLt, Nat.lt_succ_of_lt hLt]
    · simp [hi, hSign]
    · simp [hi, hSign, Nat.not_lt_of_gt hGt, show ¬ i < k + 1 by omega]
  · rw [if_neg fun h => hSign (hBit.1 h), BitVec.getLsbD_and, getLsbD_mask i hi]
    have hFalse : v.getLsbD k = false := by simpa using hSign
    rcases Nat.lt_trichotomy i k with hLt | rfl | hGt
    · simp [hi, hLt, Nat.lt_succ_of_lt hLt]
    · simpa [hi] using hFalse
    · simp [hi, hFalse, Nat.not_lt_of_gt hGt, show ¬ i < k + 1 by omega]

/-- The last bit of a number is lost when it is reduced to one bit less. -/
theorem mod_pred_eq (x : Nat) :
    x % 2 ^ k = x % 2 ^ (k + 1) ↔ x.testBit k = false := by
  rw [Nat.mod_pow_succ, Nat.testBit_eq_decide_div_mod_eq]
  rcases Nat.mod_two_eq_zero_or_one (x / 2 ^ k) with hBit | hBit
  · simp [hBit]
  · simp [hBit]

section

variable (env : Env Frame) (frame : Frame) {n : Nat}

/-- A type without a sign gets one bit less than it has. -/
theorem convert_unsigned {fundType : Nat} (hType : isUnsigned fundType = true) (hPos : 1 ≤ n)
    (hLt : n < 8) (v : Word) :
    convert env frame fundType n v =
      .ok (BitVec.ofNat 64 (v.toNat % 2 ^ (8 * n - 1)), .cardinal) := by
  unfold convert
  simp only [hType, ↓reduceIte, hLt]
  rw [signBit_eq env frame hPos (by omega), and_mask v (by omega)]

theorem converted_whole (signed : Bool) (v : Word) : converted signed 8 v = v := by
  cases signed with
  | true => simp [converted]
  | false =>
    have hMod : v.toNat % 2 ^ (8 * 8) = v.toNat := Nat.mod_eq_of_lt v.isLt
    simp only [converted, Bool.false_eq_true, ↓reduceIte]
    rw [hMod, BitVec.ofNat_toNat, BitVec.setWidth_eq]

/-- What `OP_GNU_convert` leaves; it is the number of the type where the type has a sign or eight
bytes, or where the last bit of the type is 0. -/
theorem convert_eq {fundType : Nat} (hType : isUnsigned fundType = true ∨ isSigned fundType = true)
    (hPos : 1 ≤ n) (hLe : n ≤ 8) (v : Word) :
    ∃ w t, convert env frame fundType n v = .ok (w, t) ∧
      (w = converted (isSigned fundType) n v ↔
        (isUnsigned fundType = true → n < 8 → v.getLsbD (8 * n - 1) = false)) := by
  -- the mask for unsigned types is one bit short, signed types are extended
  rcases hType with hType | hType
  · have hSigned : isSigned fundType = false := by
      simp only [isUnsigned, isSigned, List.mem_cons, List.not_mem_nil, or_false,
        decide_eq_true_eq] at hType ⊢
      rcases hType with rfl | rfl | rfl | rfl | rfl <;> rfl
    rw [hSigned]
    by_cases hLt : n < 8
    · refine ⟨_, _, convert_unsigned env frame hType hPos hLt v, ?_⟩
      have hWidth : 8 * n = 8 * n - 1 + 1 := by omega
      have hBound : ∀ k, k < 64 → v.toNat % 2 ^ k < 2 ^ 64 := by
        intro k hk
        have hMod : v.toNat % 2 ^ k < 2 ^ k := Nat.mod_lt _ (Nat.two_pow_pos k)
        have hPow : 2 ^ k < 2 ^ 64 := Nat.pow_lt_pow_right (by omega) hk
        omega
      have hNat : BitVec.ofNat 64 (v.toNat % 2 ^ (8 * n - 1)) = converted false n v ↔
          v.toNat % 2 ^ (8 * n - 1) = v.toNat % 2 ^ (8 * n) := by
        constructor
        · intro h
          have hToNat := congrArg BitVec.toNat h
          simp only [converted, Bool.false_eq_true, ↓reduceIte, BitVec.toNat_ofNat] at hToNat
          rwa [Nat.mod_eq_of_lt (hBound _ (by omega)), Nat.mod_eq_of_lt (hBound _ (by omega))]
            at hToNat
        · intro h
          rw [h]
          rfl
      rw [hNat, hWidth, Nat.add_sub_cancel, mod_pred_eq]
      show v.getLsbD _ = false ↔ _
      exact ⟨fun h _ _ => h, fun h => h hType hLt⟩
    · have hEight : n = 8 := by omega
      subst hEight
      refine ⟨v, .cardinal, ?_, ?_⟩
      · unfold convert
        simp only [hType, ↓reduceIte, Nat.lt_irrefl]
      · rw [converted_whole]
        exact ⟨fun _ _ h => absurd h (Nat.lt_irrefl 8), fun _ => rfl⟩
  · have hUnsigned : isUnsigned fundType = false := by
      simp only [isUnsigned, isSigned, List.mem_cons, List.not_mem_nil, or_false,
        decide_eq_true_eq] at hType ⊢
      rcases hType with rfl | rfl | rfl <;> rfl
    have hBool : fundType ≠ 0x02 := by
      rintro rfl
      cases hType
    rw [hType]
    refine ⟨converted true n v, .integer, ?_, ⟨fun _ h => ?_, fun _ => rfl⟩⟩
    · unfold convert
      simp only [hUnsigned, hBool, hType, Bool.false_eq_true, ↓reduceIte]
      by_cases hLt : n < 8
      · have hWidth : 8 * n - 1 + 1 = 8 * n := by omega
        simp only [hLt, ↓reduceIte]
        rw [signBit_eq env frame hPos hLe, spread_sign v (by omega), hWidth]
        rfl
      · have hEight : n = 8 := by omega
        subst hEight
        simp only [Nat.lt_irrefl, ↓reduceIte]
        rw [converted_whole]
    · rw [hUnsigned] at h
      cases h

end

/-! ## The operation in an expression -/

/-- The evaluation of this code, with the same stack. -/
def Eval.onCode (e : Eval Frame) (data : List UInt8) : Eval Frame :=
  { e with base := 0, codePos := 0, codeLen := data.length }

/-- The code comes to its end, with this value at the top and the same entries below it. -/
def Leaves (env : Env Frame) (data : List UInt8) (e : Eval Frame) (w : Word) : Prop :=
  ∃ k s, run (step env data) (e.onCode data).start (List.replicate k ()) = some (.finished s) ∧
    s.eval.values = w :: e.values.tail

/-- What `dwarfecomp.c` puts in the place of an `OP_GNU_convert`. -/
def maskCode (n : Nat) : Code := .op Op.constu [DwarfTransform.uleb (2 ^ (n * 8) - 1)]
  (.op Op.and [] .nil)

section

variable {env : Env Frame} {data : List UInt8} {s : State Frame} {v : Word} {vs : List Word}
  {t : TypeClass} {ts : List TypeClass}

theorem Shows.advance (h : Shows vs ts s) (n : Nat) : Shows vs ts (s.advance n) :=
  ⟨⟨h.fits.stk, h.fits.typeStk, h.fits.le⟩, h.values, h.types⟩

theorem execute_gnuConvert : execute env data Op.gnuConvert = (do
    checkStack 1
    let fundType ← readU4leb128 data
    let typeSize ← readU4leb128 data
    let frame := (← get).eval.stackFrame
    let (v, type) ← orRaise (convert env frame fundType.toNat typeSize.toNat (← stkAt 1))
    setStkAt 1 v
    setTypeAt 1 type : Vm Frame Unit) := rfl

variable (env) in
theorem gives_gnuConvert (h : Shows (v :: vs) (t :: ts) s) {rawF rawN after : List UInt8}
    (hF : Leb128.Ends rawF) (hN : Leb128.Ends rawN)
    (hCode : data.drop s.pos = rawF ++ (rawN ++ after))
    (hLe : s.eval.codePos + (rawF.length + rawN.length) ≤ s.eval.codeLen) {w : Word}
    {t' : TypeClass} (hConvert : convert env s.eval.stackFrame (ulebWord 32 rawF).toNat
      (ulebWord 32 rawN).toNat v = .ok (w, t')) :
    Gives (execute env data Op.gnuConvert) (fun _ s' => Shows (w :: vs) (t' :: ts) s' ∧
      s'.rest = (s.advance (rawF.length + rawN.length)).rest) s := by
  have hReadF : readU4leb128 data s = .ok (ulebWord 32 rawF, s.advance rawF.length) :=
    readLeb_raw hF hCode (by omega)
  have hNext : data.drop (s.advance rawF.length).pos = rawN ++ after := by
    have hDrop := congrArg (List.drop rawF.length) hCode
    rw [List.drop_drop, List.drop_left] at hDrop
    rw [← hDrop]
    congr 1
    simp only [State.pos, State.advance]
    omega
  have hBoth : (s.advance rawF.length).advance rawN.length =
      s.advance (rawF.length + rawN.length) := by
    simp [State.advance, Nat.add_assoc]
  have hReadN : readU4leb128 data (s.advance rawF.length) =
      .ok (ulebWord 32 rawN, s.advance (rawF.length + rawN.length)) := by
    rw [← hBoth]
    exact readLeb_raw hN hNext (by simp only [State.advance]; omega)
  have hShows := h.advance (rawF.length + rawN.length)
  rw [execute_gnuConvert]
  refine (gives_checkStack h (by simp)).bind ?_
  rintro _ s rfl
  refine gives_bind_of_ok hReadF (gives_bind_of_ok hReadN (gives_bind_of_ok rfl ?_))
  refine (gives_stkAt hShows (k := 0) rfl).reads ?_
  have hFrame : (s.advance (rawF.length + rawN.length)).eval.stackFrame = s.eval.stackFrame := rfl
  rw [hFrame, hConvert]
  refine gives_bind_of_ok rfl ?_
  refine (gives_setStkAt hShows (k := 0) (by simp) w).bind ?_
  rintro _ s₁ ⟨h₁, hRest₁⟩
  refine (gives_setTypeAt h₁ (k := 0) (by simp) t').mono ?_
  rintro _ s₂ ⟨h₂, hRest₂⟩
  exact ⟨h₂, hRest₂.trans hRest₁⟩

variable (env) in
theorem gives_constu (h : Shows vs ts s) (hRoom : s.eval.stkPos < s.eval.stkMax)
    {raw after : List UInt8} (hRaw : Leb128.Ends raw) (hCode : data.drop s.pos = raw ++ after)
    (hLe : s.eval.codePos + raw.length ≤ s.eval.codeLen) :
    Gives (execute env data Op.constu) (fun _ s' =>
      Shows (ulebWord 64 raw :: vs) (.cardinal :: ts) s' ∧
        s'.rest = (s.advance raw.length).rest) s := by
  have hExecute : execute env data Op.constu =
      (readU8leb128 data >>= fun v => push v .cardinal) := rfl
  have hRead : readU8leb128 data s = .ok (ulebWord 64 raw, s.advance raw.length) :=
    readLeb_raw hRaw hCode hLe
  rw [hExecute]
  exact gives_bind_of_ok hRead (gives_push (h.advance raw.length) hRoom _ _)

variable (env) in
theorem gives_and {a b : Word} {ta tb : TypeClass}
    (h : Shows (b :: a :: vs) (tb :: ta :: ts) s) :
    Gives (execute env data Op.and) (fun _ s' =>
      Shows ((a &&& b) :: vs) (ta :: ts) s' ∧ s'.rest = s.rest) s := by
  have hExecute : execute env data Op.and = (do
      checkStack 2
      let b ← stkAt 1
      let a ← stkAt 2
      dropTop
      let f ← orFault (Vm.arithmetic (env.machine (← get).eval.stackFrame) Op.and)
      setStkAt 1 (← orRaise (f a b)) : Vm Frame Unit) := rfl
  rw [hExecute]
  refine (gives_checkStack h (by simp)).bind ?_
  rintro _ s rfl
  refine (gives_stkAt h (k := 0) rfl).reads ?_
  refine (gives_stkAt h (k := 1) rfl).reads ?_
  refine (gives_dropTop h (by simp)).bind fun _ s₁ ⟨h₁, hRest₁⟩ => ?_
  refine gives_bind_of_ok (a := s₁) (t := s₁) rfl ?_
  refine gives_bind_of_ok (t := s₁) rfl ?_
  refine gives_bind_of_ok (t := s₁) rfl ?_
  refine (gives_setStkAt h₁ (k := 0) (by simp) _).mono fun _ s₂ ⟨h₂, hRest₂⟩ => ⟨h₂, ?_⟩
  rw [hRest₂, hRest₁]

/-- A step that executes an operation. -/
theorem step_execute (hPos : s.eval.codePos < s.eval.codeLen) {op : UInt8}
    (hOp : data[s.pos]? = some op) {Q : State Frame → Prop}
    (h : Gives (execute env data op) (fun _ => Q) s.fetched) :
    ∃ s', step env data (.running s) () = some (.running s') ∧ Q s' := by
  obtain ⟨a, s', hRun, hQ⟩ := h
  refine ⟨s', ?_, hQ⟩
  have hStep : evaluateStep env data s = .ok (false, s') := by
    rw [evaluateStep_fetched hPos hOp]
    exact bind_of_ok hRun
  simp only [step, hStep]

/-- The last step of an expression. -/
theorem step_end (hPos : s.eval.codeLen ≤ s.eval.codePos) (hPending : s.pending = [])
    (hQuiet : s.regDef = none ∧ s.valueAddr = none ∧ s.implicitPointer = 0) :
    step env data (.running s) () = some (.finished s) := by
  simp only [step, evaluateStep_end hPos hPending hQuiet]

/-- Where an evaluation starts. -/
def Eval.begin (e : Eval Frame) (data : List UInt8) : State Frame :=
  ⟨e.onCode data, none, none, 0, []⟩

theorem start_begin (e : Eval Frame) {data : List UInt8} (h : data ≠ []) :
    (e.onCode data).start = .running (e.begin data) := by
  have hLength : (e.onCode data).codeLen ≠ 0 := by simpa [Eval.onCode] using h
  exact if_neg hLength

theorem rest_advance {s s' : State Frame} (h : s.rest = s'.rest) (n : Nat) :
    (s.advance n).rest = (s'.advance n).rest := by
  have hPos : s.eval.codePos = s'.eval.codePos :=
    (congrArg (fun t : State Frame => t.eval.codePos) h :)
  show { s.rest with eval := { s.rest.eval with codePos := s.eval.codePos + n } } =
    { s'.rest with eval := { s'.rest.eval with codePos := s'.eval.codePos + n } }
  rw [h, hPos]

/-- An evaluation of the code has come to the position `n`; only the stack has changed. -/
structure At (e : Eval Frame) (data : List UInt8) (n : Nat) (vs : List Word) (ts : List TypeClass)
    (s : State Frame) : Prop where
  shows : Shows vs ts s
  rest  : s.rest = ((e.begin data).advance n).rest

section

variable {e : Eval Frame} {n : Nat}

theorem At.begin (hFits : e.Fits) (data : List UInt8) :
    At e data 0 e.values e.types (e.begin data) :=
  ⟨⟨⟨hFits.stk, hFits.typeStk, hFits.le⟩, rfl, rfl⟩, rfl⟩

theorem At.pos (h : At e data n vs ts s) : s.pos = n ∧ s.eval.codePos = n := by
  have hPos : s.eval.codePos = 0 + n :=
    (congrArg (fun t : State Frame => t.eval.codePos) h.rest :)
  have hBase : s.eval.base = 0 := (congrArg (fun t : State Frame => t.eval.base) h.rest :)
  refine ⟨?_, by omega⟩
  unfold State.pos
  omega

theorem At.codeLen (h : At e data n vs ts s) : s.eval.codeLen = data.length :=
  (congrArg (fun t : State Frame => t.eval.codeLen) h.rest :)

theorem At.stackFrame (h : At e data n vs ts s) : s.eval.stackFrame = e.stackFrame :=
  (congrArg (fun t : State Frame => t.eval.stackFrame) h.rest :)

theorem At.fetched (h : At e data n vs ts s) : At e data (n + 1) vs ts s.fetched := by
  refine ⟨h.shows.fetched.1, ?_⟩
  rw [fetched_rest, rest_advance h.rest]
  rfl

/-- An operation with `k` bytes of operands. -/
theorem At.step (h : At e data n vs ts s) {op : UInt8} (hOp : data[n]? = some op)
    {vs' : List Word} {ts' : List TypeClass}
    (hGives : Gives (execute env data op) (fun _ s' => Shows vs' ts' s' ∧
      s'.rest = (s.fetched.advance k).rest) s.fetched) :
    ∃ s', VmEval.step env data (.running s) () = some (.running s') ∧
      At e data (n + 1 + k) vs' ts' s' := by
  have hLt : n < data.length := (List.getElem?_eq_some_iff.1 hOp).1
  obtain ⟨hPos, hCodePos⟩ := h.pos
  obtain ⟨s', hStep, hShows, hRest⟩ := step_execute (by rw [hCodePos, h.codeLen]; exact hLt)
    (by rw [hPos]; exact hOp) hGives
  refine ⟨s', hStep, hShows, ?_⟩
  rw [hRest, rest_advance h.fetched.rest]
  simp [State.advance, Nat.add_assoc]

/-- The code has come to its end. -/
theorem At.finish (h : At e data data.length vs ts s) :
    VmEval.step env data (.running s) () = some (.finished s) := by
  have hQuiet : s.regDef = none ∧ s.valueAddr = none ∧ s.implicitPointer = 0 :=
    ⟨(congrArg State.regDef h.rest :), (congrArg State.valueAddr h.rest :),
      (congrArg State.implicitPointer h.rest :)⟩
  exact step_end (by rw [h.codeLen, h.pos.2]) (congrArg State.pending h.rest :) hQuiet

theorem types_cons (hFits : e.Fits) (hTop : e.values = v :: vs) : ∃ t ts, e.types = t :: ts := by
  have hShows := (At.begin hFits []).shows
  have hLength := hShows.length_values.trans hShows.length_types.symm
  rw [hTop] at hLength
  refine List.exists_cons_of_ne_nil ?_
  intro hNil
  rw [hNil] at hLength
  cases hLength

theorem leaves_convert (hFits : e.Fits) (hTop : e.values = v :: vs) {rawF rawN : List UInt8}
    (hF : Leb128.Ends rawF) (hN : Leb128.Ends rawN) {w : Word} {t' : TypeClass}
    (hConvert : convert env e.stackFrame (ulebWord 32 rawF).toNat (ulebWord 32 rawN).toNat v =
      .ok (w, t')) : Leaves env (Op.gnuConvert :: (rawF ++ rawN)) e w := by
  obtain ⟨t, ts, hTypes⟩ := types_cons hFits hTop
  have hStart := At.begin hFits (Op.gnuConvert :: (rawF ++ rawN))
  rw [hTop, hTypes] at hStart
  have hFetched := hStart.fetched
  have hCode : (Op.gnuConvert :: (rawF ++ rawN)).drop
      (e.begin (Op.gnuConvert :: (rawF ++ rawN))).fetched.pos = rawF ++ (rawN ++ []) := by
    rw [hFetched.pos.1, List.append_nil]
    rfl
  obtain ⟨s₁, hStep, h₁⟩ := hStart.step rfl
    (gives_gnuConvert env hFetched.shows hF hN hCode
      (by rw [hFetched.pos.2, hFetched.codeLen, List.length_cons, List.length_append]; omega)
      (by rw [hFetched.stackFrame]; exact hConvert))
  have hLength :
    0 + 1 + (rawF.length + rawN.length) = (Op.gnuConvert :: (rawF ++ rawN)).length := by
    rw [List.length_cons, List.length_append]
    omega
  rw [hLength] at h₁
  refine ⟨2, s₁, ?_, ?_⟩
  · rw [start_begin e (by simp)]
    show (VmEval.step env _ (.running _) ()).bind _ = _
    rw [hStep]
    show (VmEval.step env _ (.running _) ()).bind _ = _
    rw [h₁.finish]
    rfl
  · rw [hTop]
    exact h₁.shows.values

variable (env) in
theorem leaves_mask {n : Nat} (hLt : n < 8) (hFits : e.Fits) (hTop : e.values = v :: vs)
    (big : Bool) :
    Leaves env ((maskCode n).bytes big) e (BitVec.ofNat 64 (v.toNat % 2 ^ (8 * n))) := by
  obtain ⟨t, ts, hTypes⟩ := types_cons hFits hTop
  have hRaw := Leb128.encode_ends (2 ^ (n * 8) - 1)
  have hBytes : (maskCode n).bytes big =
      Op.constu :: (Leb128.encode (2 ^ (n * 8) - 1) ++ [Op.and]) := by
    simp [maskCode, Code.bytes, DwarfTransform.uleb, Operand.bytes]
  have hMask : ulebWord 64 (Leb128.encode (2 ^ (n * 8) - 1)) = BitVec.twoPow 64 (8 * n) - 1 := by
    rw [ulebWord_eq, Leb128.value_encode, twoPow_sub_one (by omega), Nat.mul_comm]
  generalize hEncode : Leb128.encode (2 ^ (n * 8) - 1) = raw at hRaw hBytes hMask
  rw [hBytes]
  have hStart := At.begin hFits (Op.constu :: (raw ++ [Op.and]))
  rw [hTop, hTypes] at hStart
  have hFetched := hStart.fetched
  have hCode : (Op.constu :: (raw ++ [Op.and])).drop
      (e.begin (Op.constu :: (raw ++ [Op.and]))).fetched.pos = raw ++ [Op.and] := by
    rw [hFetched.pos.1]
    rfl
  obtain ⟨s₁, hStep₁, h₁⟩ := hStart.step rfl
    (gives_constu env hFetched.shows hStart.shows.fetched.2 hRaw hCode
      (by rw [hFetched.pos.2, hFetched.codeLen, List.length_cons, List.length_append]; omega))
  have hAnd : (Op.constu :: (raw ++ [Op.and]))[0 + 1 + raw.length]? = some Op.and := by
    rw [Nat.zero_add, Nat.add_comm 1, List.getElem?_cons_succ]
    simp
  obtain ⟨s₂, hStep₂, h₂⟩ := h₁.step (k := 0) hAnd (gives_and env h₁.fetched.shows)
  have hLength : 0 + 1 + raw.length + 1 + 0 = (Op.constu :: (raw ++ [Op.and])).length := by
    rw [List.length_cons, List.length_append, List.length_singleton]
    omega
  rw [hLength] at h₂
  refine ⟨3, s₂, ?_, ?_⟩
  · rw [start_begin e (by simp)]
    show (VmEval.step env _ (.running _) ()).bind _ = _
    rw [hStep₁]
    show (VmEval.step env _ (.running _) ()).bind _ = _
    rw [hStep₂]
    show (VmEval.step env _ (.running _) ()).bind _ = _
    rw [h₂.finish]
    rfl
  · rw [hTop, ← and_mask v (by omega), ← hMask]
    exact h₂.shows.values

/-- The last states of two evaluations of the same code are the same. -/
theorem Leaves.unique {w w' : Word} (h : Leaves env data e w) (h' : Leaves env data e w') :
    w = w' := by
  obtain ⟨k, s, hRun, hValues⟩ := h
  obtain ⟨k', s', hRun', hValues'⟩ := h'
  have hStay (status : Status Frame) (hStatus : ∃ s, status = .finished s) (j : Nat) :
      run (VmEval.step env data) status (List.replicate j ()) = some status := by
    obtain ⟨s, rfl⟩ := hStatus
    induction j with
    | zero => rfl
    | succ j ih => exact ih
  have hLater (j k : Nat) (s : State Frame)
      (hRun : run (VmEval.step env data) (e.onCode data).start (List.replicate k ()) =
        some (.finished s)) :
      run (VmEval.step env data) (e.onCode data).start (List.replicate (k + j) ()) =
        some (.finished s) := by
    rw [List.replicate_add, run_append, hRun]
    exact hStay _ ⟨s, rfl⟩ j
  have hFirst := hLater k' k s hRun
  have hSecond := hLater k k' s' hRun'
  rw [Nat.add_comm] at hSecond
  cases hFirst.symm.trans hSecond
  rw [hValues] at hValues'
  exact (List.cons.inj hValues').1

/-- `OP_GNU_convert` leaves the number of the type, and what the operations leave that are put in
its place, exactly when the type has a sign or eight bytes or the last bit of the type is 0. -/
theorem convert_agrees (env : Env Frame) (hFits : e.Fits) (hTop : e.values = v :: vs)
    {fundType n : Nat} {rawF rawN : List UInt8} (hF : Leb128.Ends rawF) (hN : Leb128.Ends rawN)
    (hValueF : Leb128.value rawF = fundType) (hValueN : Leb128.value rawN = n)
    (hType : isUnsigned fundType = true ∨ isSigned fundType = true) (hPos : 1 ≤ n) (hLe : n ≤ 8) :
    (Leaves env (Op.gnuConvert :: (rawF ++ rawN)) e (converted (isSigned fundType) n v) ∧
      (fundType ∈ [0x01, 0x07, 0x08] → n < 8 → ∀ big w,
        Leaves env ((maskCode n).bytes big) e w ↔
          Leaves env (Op.gnuConvert :: (rawF ++ rawN)) e w)) ↔
      (isUnsigned fundType = true → n < 8 → v.getLsbD (8 * n - 1) = false) := by
  have hSmall : fundType < 2 ^ 32 := by
    simp only [isUnsigned, isSigned, List.mem_cons, List.not_mem_nil, or_false,
      decide_eq_true_eq] at hType
    omega
  have hFund : (ulebWord 32 rawF).toNat = fundType := by
    rw [ulebWord_eq, hValueF, BitVec.toNat_ofNat, Nat.mod_eq_of_lt hSmall]
  have hSize : (ulebWord 32 rawN).toNat = n := by
    rw [ulebWord_eq, hValueN, BitVec.toNat_ofNat, Nat.mod_eq_of_lt (by omega)]
  obtain ⟨w, t, hConvert, hIff⟩ := convert_eq env e.stackFrame hType hPos hLe v
  have hLeaves : Leaves env (Op.gnuConvert :: (rawF ++ rawN)) e w :=
    leaves_convert hFits hTop hF hN (by rw [hFund, hSize]; exact hConvert)
  rw [← hIff]
  constructor
  · rintro ⟨hRight, -⟩
    exact hLeaves.unique hRight
  · intro hEq
    rw [← hEq]
    refine ⟨hLeaves, fun hMask hLt big w' => ?_⟩
    have hSigned : isSigned fundType = false := by
      simp only [List.mem_cons, List.not_mem_nil, or_false] at hMask
      rcases hMask with rfl | rfl | rfl <;> rfl
    have hOther : Leaves env ((maskCode n).bytes big) e w := by
      have hMasked := leaves_mask env hLt hFits hTop big
      rw [hSigned] at hEq
      rw [hEq]
      exact hMasked
    constructor
    · intro h
      rw [h.unique hOther]
      exact hLeaves
    · intro h
      rw [h.unique hLeaves]
      exact hOther

end

end

/-- The low byte is 0x41 and is converted to a byte. -/
theorem convert_agrees_byte :
    (Leaves (bareEnv false) (Op.gnuConvert :: ([7] ++ [1]))
        ⟨(), [], 0, 0, 0, [0x141], [.cardinal], 1, 1, []⟩ (converted (isSigned 7) 1 0x141) ∧
      (7 ∈ [0x01, 0x07, 0x08] → 1 < 8 → ∀ big w,
        Leaves (bareEnv false) ((maskCode 1).bytes big)
            ⟨(), [], 0, 0, 0, [0x141], [.cardinal], 1, 1, []⟩ w ↔
          Leaves (bareEnv false) (Op.gnuConvert :: ([7] ++ [1]))
            ⟨(), [], 0, 0, 0, [0x141], [.cardinal], 1, 1, []⟩ w)) ↔
      (isUnsigned 7 = true → 1 < 8 → (0x141 : Word).getLsbD (8 * 1 - 1) = false) :=
  convert_agrees (bareEnv false) ⟨rfl, rfl, Nat.le_refl 1⟩ rfl (by decide) (by decide) rfl rfl
    (.inl rfl) (Nat.le_refl 1) (by decide)

/-- A byte with its last bit set. -/
theorem convert_drops_bit :
    Leaves (bareEnv false) [Op.gnuConvert, 7, 1] ⟨(), [], 0, 0, 0, [0x80], [.cardinal],
      1, 1, []⟩ 0 ∧
      Leaves (bareEnv false) ((maskCode 1).bytes false)
        ⟨(), [], 0, 0, 0, [0x80], [.cardinal], 1, 1, []⟩ 0x80 ∧
      ¬ Leaves (bareEnv false) [Op.gnuConvert, 7, 1]
        ⟨(), [], 0, 0, 0, [0x80], [.cardinal], 1, 1, []⟩ (converted (isSigned 7) 1 0x80) := by
  have hZero : Leaves (bareEnv false) [Op.gnuConvert, 7, 1]
      ⟨(), [], 0, 0, 0, [0x80], [.cardinal], 1, 1, []⟩ 0 := ⟨2, _, rfl, rfl⟩
  refine ⟨hZero, ⟨3, _, rfl, rfl⟩, fun h => ?_⟩
  have hEq := h.unique hZero
  revert hEq
  decide

/-! ## Entry values -/

section

variable (env : Env Frame) (frame : Frame)

variable {bytes : List UInt8} {big : Bool} {p : LocationPiece}

/-- Whether the bytes of a piece can be read does not depend on the byte order. -/
theorem pieceBuffer_order (big' : Bool)
    (h : pieceBuffer env frame big p = .ok bytes) :
    ∃ bytes', pieceBuffer env frame big' p = .ok bytes' := by
  unfold pieceBuffer at h ⊢
  by_cases hAway : p.optimizedAway = true
  · rw [if_pos hAway] at h
    cases h
  rw [if_neg hAway] at h ⊢
  by_cases hImplicit : p.implicitPointer ≠ 0
  · rw [if_pos hImplicit] at h
    cases h
  rw [if_neg hImplicit] at h ⊢
  cases hReg : p.reg with
  | some reg =>
    rw [hReg] at h
    cases hRead : orException (env.readReg frame reg) with
    | error f =>
      simp only [hRead] at h
      cases h
    | ok bytes =>
      simp only [hRead]
      exact ⟨_, rfl⟩
  | none =>
    cases hValue : p.value with
    | some value => exact ⟨_, rfl⟩
    | none =>
      rw [hReg, hValue] at h
      exact ⟨bytes, h⟩

theorem bitsOf_order (big' : Bool) {bs : List Bool}
    (h : bitsOf env frame big p = .ok bs) :
    ∃ bs', bitsOf env frame big' p = .ok bs' ∧ bs'.length = bs.length := by
  unfold bitsOf at h ⊢
  obtain ⟨bytes, hBuffer, h⟩ := Fallible.bind_eq_ok h
  cases h
  obtain ⟨bytes', hOther⟩ := pieceBuffer_order env frame big' hBuffer
  rw [hOther]
  exact ⟨_, rfl, by simp⟩

variable {pieces : List LocationPiece}

theorem mapM_bitsOf_order (big' : Bool) {bs : List (List Bool)}
    (h : pieces.mapM (bitsOf env frame big) = .ok bs) :
    ∃ bs', pieces.mapM (bitsOf env frame big') = .ok bs' ∧
      bs'.flatten.length = bs.flatten.length := by
  induction pieces generalizing bs with
  | nil =>
    cases h
    exact ⟨[], rfl, rfl⟩
  | cons p pieces ih =>
    rw [List.mapM_cons] at h ⊢
    obtain ⟨b, hFirst, h⟩ := Fallible.bind_eq_ok h
    obtain ⟨bs, hRest, h⟩ := Fallible.bind_eq_ok h
    cases h
    obtain ⟨b', hFirst', hLength⟩ := bitsOf_order env frame big' hFirst
    obtain ⟨bs', hRest', hLengths⟩ := ih hRest
    rw [hFirst', hRest']
    refine ⟨b' :: bs', rfl, ?_⟩
    rw [List.flatten_cons, List.flatten_cons, List.length_append, List.length_append, hLength,
      hLengths]

theorem length_bytesOf (big : Bool) (bs : List Bool) :
    (bytesOf big bs).length = (bs.length + 7) / 8 := by
  simp [bytesOf]

theorem length_bitsOf {bs : List Bool}
    (h : bitsOf env frame big p = .ok bs) : bs.length = p.pieceBits.toNat := by
  unfold bitsOf at h
  obtain ⟨bytes, -, h⟩ := Fallible.bind_eq_ok h
  cases h
  rw [List.length_map, List.length_range]

theorem length_mapM_bitsOf {bs : List (List Bool)}
    (h : pieces.mapM (bitsOf env frame big) = .ok bs) :
    bs.flatten.length = (pieces.map fun p => p.pieceBits.toNat).sum := by
  induction pieces generalizing bs with
  | nil =>
    cases h
    rfl
  | cons p pieces ih =>
    rw [List.mapM_cons] at h
    obtain ⟨b, hFirst, h⟩ := Fallible.bind_eq_ok h
    obtain ⟨bs, hRest, h⟩ := Fallible.bind_eq_ok h
    cases h
    rw [List.flatten_cons, List.length_append, length_bitsOf env frame hFirst, ih hRest]
    rfl

theorem length_readLocationPieces (hSmall : (pieces.map fun p => p.pieceBits.toNat).sum < 2 ^ 32)
    (h : readLocationPieces env frame big pieces = .ok bytes) :
    bytes.length = ((pieces.map fun p => p.pieceBits.toNat).sum + 7) / 8 := by
  unfold readLocationPieces at h
  rw [if_neg (Nat.not_le_of_lt hSmall)] at h
  obtain ⟨bs, hBits, h⟩ := Fallible.bind_eq_ok h
  cases h
  rw [length_bytesOf, length_mapM_bitsOf env frame hBits]

/-- The bytes can be read in both orders when they are not more than the buffer holds. -/
theorem readLocationPieces_order (big' : Bool)
    (hSmall : (pieces.map fun p => p.pieceBits.toNat).sum < 2 ^ 32)
    (h : readLocationPieces env frame big pieces = .ok bytes) :
    ∃ bytes', readLocationPieces env frame big' pieces = .ok bytes' ∧
      bytes'.length = bytes.length := by
  unfold readLocationPieces at h ⊢
  rw [if_neg (Nat.not_le_of_lt hSmall)] at h ⊢
  obtain ⟨bs, hBits, h⟩ := Fallible.bind_eq_ok h
  cases h
  obtain ⟨bs', hOther, hLength⟩ := mapM_bitsOf_order env frame big' hBits
  rw [hOther]
  refine ⟨bytesOf big' bs'.flatten, rfl, ?_⟩
  rw [length_bytesOf, length_bytesOf, hLength]

end

/-- C says what `b << (i * 8)` is. -/
def ShiftDefined (b : UInt8) (i : Nat) : Prop := i < 3 ∨ (i = 3 ∧ b < 128)

/-- What a shift that C leaves open gives. -/
def Env.withShift (env : Env Frame) (shift : UInt8 → Nat → Word) : Env Frame :=
  { env with intShift := shift }

section

variable (env : Env Frame)

theorem shiftByte_defined {b : UInt8} {i : Nat} (h : ShiftDefined b i) :
    shiftByte env b i = BitVec.ofNat 64 (2 ^ (8 * i) * b.toNat) := by
  have hShift : shiftByte env b i = b.toBitVec.setWidth 64 <<< (i * 8) := if_pos h
  rw [hShift]
  refine BitVec.eq_of_toNat_eq ?_
  have hByte : b.toNat < 2 ^ 8 := b.toNat_lt
  rw [BitVec.toNat_shiftLeft, BitVec.toNat_setWidth, BitVec.toNat_ofNat, Nat.shiftLeft_eq,
    Nat.mul_comm i 8, Nat.mul_comm (2 ^ (8 * i))]
  congr 2
  exact Nat.mod_eq_of_lt (by rw [UInt8.toNat_toBitVec]; omega)

variable {bytes : List UInt8}

/-- The bytes before the `j`-th have been put together to `v`. -/
theorem foldl_shiftByte {j v : Nat} (hv : v < 2 ^ (8 * j))
    (h : ∀ i b, bytes[i]? = some b → ShiftDefined b (j + i)) :
    (bytes.zipIdx j).foldl (fun v bi => v ||| shiftByte env bi.1 bi.2) (BitVec.ofNat 64 v) =
      BitVec.ofNat 64 (v + 2 ^ (8 * j) * leNat bytes) := by
  induction bytes generalizing j v with
  | nil => simp [leNat]
  | cons b bytes ih =>
    have hDefined : ShiftDefined b j := h 0 b rfl
    have hByte : b.toNat < 256 := b.toNat_lt
    have hPow : 2 ^ (8 * (j + 1)) = 2 ^ (8 * j) * 256 := by
      rw [Nat.mul_succ, pow_add]
      rfl
    have hNext : v + 2 ^ (8 * j) * b.toNat < 2 ^ (8 * (j + 1)) := by
      rw [hPow]
      calc v + 2 ^ (8 * j) * b.toNat < 2 ^ (8 * j) + 2 ^ (8 * j) * b.toNat := by omega
        _ = 2 ^ (8 * j) * (b.toNat + 1) := by ring
        _ ≤ 2 ^ (8 * j) * 256 := Nat.mul_le_mul_left _ hByte
    have hOr : BitVec.ofNat 64 v ||| BitVec.ofNat 64 (2 ^ (8 * j) * b.toNat) =
        BitVec.ofNat 64 (v + 2 ^ (8 * j) * b.toNat) := by
      rw [Nat.add_comm v, Nat.two_pow_add_eq_or_of_lt hv, Nat.or_comm, BitVec.ofNat_or]
    rw [List.zipIdx_cons, List.foldl_cons, shiftByte_defined env hDefined, hOr,
      ih hNext fun i b' hGet => ?_]
    · rw [hPow, leNat]
      congr 1
      ring
    · have hLater := h (i + 1) b' hGet
      rwa [Nat.add_comm i, ← Nat.add_assoc] at hLater

theorem entryBytes_defined
    (h : ∀ i b, bytes[i]? = some b → ShiftDefined b i) :
    entryBytes env bytes = BitVec.ofNat 64 (leNat bytes) := by
  have hFold := foldl_shiftByte env (j := 0) (v := 0) (by decide)
    (by simpa using h)
  simpa [entryBytes] using hFold

theorem shiftByte_zero_lt (b : UInt8) (i : Nat) :
    (shiftByte (env.withShift fun _ _ => 0) b i).getLsbD 63 = false := by
  by_cases h : ShiftDefined b i
  · have hIndex : 8 * i ≤ 24 := by
      rcases h with h | h
      · omega
      · omega
    have hByte : b.toNat < 2 ^ 8 := b.toNat_lt
    have hLt : 2 ^ (8 * i) * b.toNat < 2 ^ 63 := by
      calc 2 ^ (8 * i) * b.toNat < 2 ^ (8 * i) * 2 ^ 8 := by
            exact Nat.mul_lt_mul_of_pos_left hByte (Nat.two_pow_pos _)
        _ ≤ 2 ^ 24 * 2 ^ 8 :=
            Nat.mul_le_mul_right _ (Nat.pow_le_pow_right (by decide) hIndex)
        _ ≤ 2 ^ 63 := by decide
    rw [shiftByte_defined _ h, BitVec.getLsbD_ofNat, Nat.testBit_lt_two_pow hLt, Bool.and_false]
  · have hOpen : shiftByte (env.withShift fun _ _ => 0) b i = 0 := if_neg h
    rw [hOpen]
    rfl

/-- The last bit is not set when the open shifts give 0. -/
theorem entryBytes_zero (bytes : List UInt8) :
    (entryBytes (env.withShift fun _ _ => 0) bytes).getLsbD 63 = false := by
  unfold entryBytes
  refine List.foldlRecOn (motive := fun v : Word => v.getLsbD 63 = false) _ _ rfl ?_
  intro v hv bi _
  rw [BitVec.getLsbD_or, hv, shiftByte_zero_lt, Bool.or_false]

/-- All bits are set when the open shifts set all bits and there is one of them. -/
theorem entryBytes_ones {i : Nat} {b : UInt8} (hGet : bytes[i]? = some b)
    (hOpen : ¬ ShiftDefined b i) :
    entryBytes (env.withShift fun _ _ => BitVec.allOnes 64) bytes = BitVec.allOnes 64 := by
  have hShift : shiftByte (env.withShift fun _ _ => BitVec.allOnes 64) b i = BitVec.allOnes 64 :=
    if_neg hOpen
  have hSplit : ∀ (l : List (UInt8 × Nat)) (v : Word), (v = BitVec.allOnes 64 ∨ (b, i) ∈ l) →
      l.foldl (fun v bi =>
        v ||| shiftByte (env.withShift fun _ _ => BitVec.allOnes 64) bi.1 bi.2) v =
          BitVec.allOnes 64 := by
    intro l
    induction l with
    | nil =>
      rintro v (hv | hv)
      · exact hv
      · cases hv
    | cons bi l ih =>
      rintro v (rfl | hv)
      · exact ih _ (.inl BitVec.allOnes_or)
      · rcases List.mem_cons.1 hv with rfl | hv
        · refine ih _ (.inl ?_)
          dsimp only
          rw [hShift, BitVec.or_allOnes]
        · exact ih _ (.inr hv)
  refine hSplit _ _ (.inr ?_)
  exact List.mk_mem_zipIdx_iff_getElem?.2 hGet

theorem leNat_lt (bytes : List UInt8) : leNat bytes < 2 ^ (8 * bytes.length) := by
  induction bytes with
  | nil => decide
  | cons b bytes ih =>
    have hByte : b.toNat < 256 := b.toNat_lt
    have hPow : 2 ^ (8 * (bytes.length + 1)) = 256 * 2 ^ (8 * bytes.length) := by
      rw [Nat.mul_succ, pow_add, Nat.mul_comm]
      rfl
    rw [leNat, List.length_cons, hPow]
    omega

/-- Bytes of one length are told apart by their number. -/
theorem leNat_inj {l l' : List UInt8} (hLength : l.length = l'.length)
    (h : leNat l = leNat l') : l = l' := by
  induction l generalizing l' with
  | nil => exact (List.length_eq_zero_iff.1 hLength.symm).symm
  | cons b l ih =>
    obtain ⟨b', l', rfl⟩ := List.exists_cons_of_length_eq_add_one hLength.symm
    have hByte : b.toNat < 256 := b.toNat_lt
    have hByte' : b'.toNat < 256 := b'.toNat_lt
    simp only [leNat] at h
    have hFirst : b.toNat = b'.toNat := by omega
    rw [UInt8.toNat_inj.1 hFirst, ih (by simpa using hLength) (by omega)]

end

section

variable {env : Env Frame} {data : List UInt8} {s t u : State Frame}

theorem running_of_step {s' : State Frame}
    (h : step env data (.running s) () = some (.running s')) :
    evaluateStep env data s = .ok (false, s') := by
  unfold step at h
  dsimp only at h
  split at h <;> cases h
  assumption

/-- From a state before an `OP_GNU_entry_value` the evaluation has come to the end of the
expression that is in it. -/
structure EntryEnds (env : Env Frame) (data : List UInt8) (s t : State Frame) : Prop where
  op     : data[s.pos]? = some Op.gnuEntryValue
  before : s.eval.codePos < s.eval.codeLen
  run    : ∃ s₁ n, step env data (.running s) () = some (.running s₁) ∧
    run (step env data) (.running s₁) (List.replicate n ()) = some (.running t) ∧
    t.pending = s₁.pending
  after  : t.eval.codeLen ≤ t.eval.codePos

/-- What `OP_GNU_entry_value` keeps of the expression that it is in. -/
theorem EntryEnds.saved (h : EntryEnds env data s t) (hFits : s.eval.Fits) :
    ∃ saved size pending, t.pending = .entryValue saved size :: pending ∧ saved.Fits ∧
      saved.stkPos < saved.stkMax ∧ saved.values = s.eval.values := by
  obtain ⟨s₁, n, hStep, -, hSame⟩ := h.run
  have hShows := (shows_of_fits hFits).fetched
  have hExecute : execute env data Op.gnuEntryValue = (do
      let size := (← readU4leb128 data).toNat
      let s ← get
      let frame ← orRaise (orException (env.prevFrame s.eval.stackFrame))
      set
        { eval :=
            { stackFrame := frame
              args := []
              base := s.eval.base + s.eval.codePos
              codePos := 0
              codeLen := size
              stk := []
              typeStk := []
              stkPos := 0
              stkMax := 0
              pieces := [] }
          regDef := none
          valueAddr := none
          implicitPointer := 0
          pending := .entryValue s.eval size :: s.pending : State Frame }
      enterExpression : Vm Frame Unit) := rfl
  have hRun : execute env data Op.gnuEntryValue s.fetched = .ok ((), s₁) :=
    execute_of_step h.before h.op (running_of_step hStep)
  rw [hExecute] at hRun
  obtain ⟨size, s₂, hRead, hRun⟩ := bind_eq_ok.1 hRun
  obtain ⟨_, s₃, hGet, hRun⟩ := bind_eq_ok.1 hRun
  cases hGet
  obtain ⟨frame, s₄, hFrame, hRun⟩ := bind_eq_ok.1 hRun
  obtain ⟨_, s₅, hSet, hRun⟩ := bind_eq_ok.1 hRun
  cases hSet
  have hEnter : s₁.pending = .entryValue s₂.eval size.toNat :: s₂.pending := by
    obtain ⟨_, s₆, hGet, hRun⟩ := bind_eq_ok.1 hRun
    cases hGet
    split at hRun
    · cases hRun
    · cases hRun
      rfl
  obtain ⟨pos, rfl⟩ : Advances s.fetched s₂ := isReader_readLeb hRead
  refine ⟨_, _, _, hSame.trans hEnter, ?_, hShows.2, hShows.1.eval.1⟩
  exact ⟨hShows.1.fits.stk, hShows.1.fits.typeStk, hShows.1.fits.le⟩

/-- The next step of the evaluation puts this value on the entries that `s` had. -/
def Pushes (env : Env Frame) (data : List UInt8) (s t : State Frame) (w : Word) : Prop :=
  ∃ s', step env data (.running t) () = some (.running s') ∧
    s'.eval.values = w :: s.eval.values

/-- The bytes of the pieces go to the stack in the byte order of a little-endian target. -/
theorem EntryEnds.pushes (h : EntryEnds env data s t) (hFits : s.eval.Fits)
    (hLast : lastPiece t = .ok ((), u)) (hSome : u.eval.pieces ≠ []) {little : List UInt8}
    (hRead : readLocationPieces env u.eval.stackFrame false u.eval.pieces = .ok little)
    (hLe : little.length ≤ 8) (shift : UInt8 → Nat → Word) :
    Pushes (env.withShift shift) data s t (entryBytes (env.withShift shift) little) := by
  obtain ⟨saved, size, pending, hPending, hSaved, hRoom, hValues⟩ := h.saved hFits
  have hOther : readLocationPieces (env.withShift shift) u.eval.stackFrame false u.eval.pieces =
      .ok little := hRead
  have hResult : entryResult (env.withShift shift) u =
      .ok ((entryBytes (env.withShift shift) little, .cardinal), u) := by
    unfold entryResult
    rw [bind_get]
    simp only [hSome, ne_eq, not_false_eq_true, ↓reduceIte, hOther]
    refine (bind_of_ok (a := little) (t := u) rfl).trans ?_
    rw [if_neg (Nat.not_lt_of_le hLe)]
    rfl
  have hShows : Shows s.eval.values saved.types { u with eval := saved, pending } := by
    rw [← hValues]
    exact shows_of_fits (s := { u with eval := saved, pending }) hSaved
  have hLeave : Gives (leaveEntry (env.withShift shift) saved size pending)
      (fun _ s' => s'.eval.values =
        entryBytes (env.withShift shift) little :: s.eval.values) t := by
    unfold leaveEntry
    refine gives_bind_of_ok hLast (gives_bind_of_ok hResult ?_)
    refine gives_bind_of_ok (t := { u with eval := saved, pending }) rfl ?_
    refine (gives_push hShows hRoom _ _).bind fun _ s₁ ⟨h₁, _⟩ => ?_
    exact ⟨(), _, rfl, h₁.eval.1⟩
  obtain ⟨_, s', hRun, hNew⟩ := hLeave
  refine ⟨s', ?_, hNew⟩
  have hStep : evaluateStep (env.withShift shift) data t = .ok (false, s') := by
    unfold evaluateStep
    rw [bind_get]
    simp only [Nat.not_lt_of_le h.after, ↓reduceIte, hPending]
    exact bind_of_ok hRun
  simp only [step, hStep]

theorem Pushes.unique {w w' : Word} (h : Pushes env data s t w) (h' : Pushes env data s t w') :
    w = w' := by
  obtain ⟨s₁, hStep, hValues⟩ := h
  obtain ⟨s₂, hStep', hValues'⟩ := h'
  cases hStep.symm.trans hStep'
  rw [hValues] at hValues'
  exact (List.cons.inj hValues').1

/-- The value of an `OP_GNU_entry_value` is the number that the bytes of the pieces denote, whatever
the open shifts give, exactly when there are at most four bytes, the fourth one is less than 0x80
and the bytes are read from the pieces in the byte order of the target. -/
theorem entry_value_read (hFits : s.eval.Fits) (h : EntryEnds env data s t)
    (hLast : lastPiece t = .ok ((), u)) {k : Nat}
    (hSize : ((u.eval.pieces.map fun p => p.pieceBits.toNat).sum + 7) / 8 = k) (hPos : 1 ≤ k)
    (hLe : k ≤ 8) {bytes : List UInt8}
    (hRead : readLocationPieces env u.eval.stackFrame env.bigEndian u.eval.pieces = .ok bytes) :
    (∀ shift, Pushes (env.withShift shift) data s t
        (BitVec.ofNat 64 (readUint env.bigEndian bytes))) ↔
      ∃ little, readLocationPieces env u.eval.stackFrame false u.eval.pieces = .ok little ∧
        little = (if env.bigEndian then bytes.reverse else bytes) ∧
        ∀ i b, little[i]? = some b → ShiftDefined b i := by
  have hSmall : (u.eval.pieces.map fun p => p.pieceBits.toNat).sum < 2 ^ 32 := by omega
  have hSome : u.eval.pieces ≠ [] := by
    intro hNil
    rw [hNil] at hSize
    simp at hSize
    omega
  obtain ⟨little, hLittle, hLength⟩ :=
    readLocationPieces_order env u.eval.stackFrame false hSmall hRead
  have hBytes : little.length = k := by
    rw [← hSize]
    exact length_readLocationPieces env u.eval.stackFrame hSmall hLittle
  have hPushes := h.pushes hFits hLast hSome hLittle (by omega)
  constructor
  · intro hAll
    have hEq : ∀ shift, entryBytes (env.withShift shift) little =
        BitVec.ofNat 64 (readUint env.bigEndian bytes) := fun shift =>
      (hPushes shift).unique (hAll shift)
    have hDefined : ∀ i b, little[i]? = some b → ShiftDefined b i := by
      intro i b hGet
      by_contra hOpen
      have hOnes := entryBytes_ones env hGet hOpen
      have hZero := entryBytes_zero env little
      rw [hEq, ← hEq fun _ _ => BitVec.allOnes 64, hOnes] at hZero
      cases hZero
    refine ⟨little, hLittle, ?_, hDefined⟩
    refine leNat_inj ?_ ?_
    · rw [hLength]
      cases env.bigEndian <;> simp
    · have hNat := congrArg BitVec.toNat (hEq fun _ _ => 0)
      rw [entryBytes_defined _ hDefined, BitVec.toNat_ofNat, BitVec.toNat_ofNat] at hNat
      have hLtLittle := leNat_lt little
      have hLtBytes := leNat_lt (if env.bigEndian then bytes.reverse else bytes)
      have hPow : 2 ^ (8 * k) ≤ 2 ^ 64 := Nat.pow_le_pow_right (by decide) (by omega)
      have hSame : (if env.bigEndian then bytes.reverse else bytes).length = k := by
        rw [← hBytes, hLength]
        cases env.bigEndian <;> simp
      rw [hBytes] at hLtLittle
      rw [hSame] at hLtBytes
      rwa [Nat.mod_eq_of_lt (by omega), readUint, Nat.mod_eq_of_lt (by omega)] at hNat
  · rintro ⟨other, hOther, hEq, hDefined⟩ shift
    cases hLittle.symm.trans hOther
    have hValue : BitVec.ofNat 64 (readUint env.bigEndian bytes) =
        entryBytes (env.withShift shift) little := by
      rw [entryBytes_defined _ hDefined, hEq]
      rfl
    rw [hValue]
    exact hPushes shift

end

/-- An entry value whose expression is an implicit value of the bytes 0x12 and 0x34, in a piece. -/
def entryCode : List UInt8 := [Op.gnuEntryValue, 6, Op.implicitValue, 2, 0x12, 0x34, Op.piece, 2]

theorem entry_value_read_two : ∃ t, ∀ shift,
    Pushes ((bareEnv false).withShift shift) entryCode (.empty entryCode) t 0x3412 := by
  have hEnds : ∃ t, EntryEnds (bareEnv false) entryCode (.empty entryCode) t ∧
      t.eval.stackFrame = () ∧ lastPiece t = .ok ((), t) ∧
      t.eval.pieces = [{ LocationPiece.zero with value := some [0x12, 0x34], size := 2 }] :=
    ⟨_, ⟨rfl, by decide, ⟨_, 2, rfl, rfl, rfl⟩, by decide⟩, rfl, rfl, rfl⟩
  obtain ⟨t, hEnds, hFrame, hLast, hPieces⟩ := hEnds
  have hRead : readLocationPieces (bareEnv false) t.eval.stackFrame false t.eval.pieces =
      .ok [0x12, 0x34] := by
    rw [hPieces]
    rfl
  refine ⟨t, (entry_value_read ⟨rfl, rfl, Nat.le_refl 0⟩ hEnds hLast
    (k := 2) (by rw [hPieces]; rfl) (by decide) (by decide) hRead).2 ⟨_, hRead, rfl, ?_⟩⟩
  intro i b hGet
  have hIndex : i < 2 := (List.getElem?_eq_some_iff.1 hGet).1
  exact .inl (by omega)

/-- On a big-endian target the bytes are exchanged. -/
theorem entry_value_swapped : ∃ t u, EntryEnds (bareEnv true) entryCode (.empty entryCode) t ∧
    lastPiece t = .ok ((), u) ∧
    readLocationPieces (bareEnv true) u.eval.stackFrame true u.eval.pieces = .ok [0x12, 0x34] ∧
    Pushes (bareEnv true) entryCode (.empty entryCode) t 0x3412 ∧
    ¬ Pushes (bareEnv true) entryCode (.empty entryCode) t
      (BitVec.ofNat 64 (readUint true [0x12, 0x34])) := by
  have hEnds : ∃ t, EntryEnds (bareEnv true) entryCode (.empty entryCode) t ∧
      lastPiece t = .ok ((), t) ∧
      readLocationPieces (bareEnv true) t.eval.stackFrame true t.eval.pieces = .ok [0x12, 0x34] ∧
      Pushes (bareEnv true) entryCode (.empty entryCode) t 0x3412 :=
    ⟨_, ⟨rfl, by decide, ⟨_, 2, rfl, rfl, rfl⟩, by decide⟩, rfl, rfl, _, rfl, rfl⟩
  obtain ⟨t, hEnds, hLast, hRead, hPushes⟩ := hEnds
  refine ⟨t, t, hEnds, hLast, hRead, hPushes, fun h => ?_⟩
  have hEq := hPushes.unique h
  revert hEq
  decide

end TcfAgent.VmEval
