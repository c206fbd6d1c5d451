import TcfAgent.Services.RegisterStops

/-!
# Lists of register pieces

What `getm` and `setm` do is compared with `get` and `set` for each of the registers. A list that is
not refused has been checked without regard for the flags of its contexts, since all of them have
been stopped; the sum of an offset and a size has 32 bits; and the length of the data is not looked
at.

Main results:

* `registers_agree_iff` — for which lists the commands agree.
-/

namespace TcfAgent.RegisterCommands

open TcfAgent.Lib

variable {w : World} {ctx : Context} {frame : Int} {regNum : Nat} {l : Location} {setm : BitVec 32}
  {c : Checked}

/-! ## One register -/

/-- The frame on top, or no frame at all. -/
def OnTop (frame : Int) : Prop := frame < 0 ∨ isTopFrame frame

instance : DecidablePred OnTop :=
    fun frame => inferInstanceAs (Decidable (frame < 0 ∨ isTopFrame frame))

variable {α β : Type}

theorem check_bind_ok {x : Check α} {f : α → Check β} {b : β} (h : (x >>= f) = .ok b) :
    ∃ a, x = .ok a ∧ f a = .ok b := by
  rcases x with e | a
  · cases h
  · exact ⟨a, rfl, h⟩

theorem refuseIf_ok {p : Prop} [Decidable p] {e : Failure} : refuseIf p e = .ok () ↔ ¬ p := by
  unfold refuseIf
  split
  · exact ⟨nofun, fun h => absurd ‹p› h⟩
  · exact ⟨fun _ => ‹¬ p›, fun _ => rfl⟩

theorem definition_ok {reg : Register} : definition ctx regNum = .ok reg ↔
    ctx.definitions[regNum]? = some reg := by
  unfold definition
  split
  · rename_i h
    rw [h]
    exact ⟨nofun, nofun⟩
  · rename_i found h
    rw [h, Except.ok.injEq, Option.some.injEq]

theorem ofResult_ok {α : Type} {x : Except Failure α} {a : α} : ofResult x = .ok a ↔ x = .ok a := by
  rcases x with e | b
  · exact ⟨nofun, nofun⟩
  · rw [ofResult, Except.ok.injEq, Except.ok.injEq]

theorem getFrameInfo_ok {info : StackFrame} :
    getFrameInfo ctx frame = .ok info ↔ ctx.hasState ∧ ctx.stopped ∧
      ctx.frames frame = .ok info := by
  unfold getFrameInfo
  by_cases hState : ctx.hasState
  · rw [if_neg (not_not.2 hState)]
    by_cases hStopped : ctx.stopped
    · rw [if_neg (not_not.2 hStopped)]
      exact ⟨fun h => ⟨hState, hStopped, h⟩, fun h => h.2.2⟩
    · rw [if_pos hStopped]
      exact ⟨nofun, fun h => absurd h.2.1 hStopped⟩
  · rw [if_pos hState]
    exact ⟨nofun, fun h => absurd h.1 hState⟩

theorem readBytes_ok {reg : Register} {value : Value} {offs size : Nat} {bytes : List UInt8} :
    readBytes reg value offs size = .ok bytes ↔ offs + size ≤ reg.size ∧
      ∃ v, value = .ok v ∧ (List.range size).map (fun i => v (offs + i)) = bytes := by
  unfold readBytes
  by_cases hInside : offs + size ≤ reg.size
  · rw [if_pos hInside, and_iff_right hInside, ofResult_ok]
    rcases value with e | v
    · exact ⟨nofun, nofun⟩
    · exact ⟨fun h => ⟨v, rfl, Except.ok.inj h⟩, fun ⟨v', hValue, h⟩ =>
        by cases hValue; exact congrArg _ h⟩
  · rw [if_neg hInside]
    exact ⟨nofun, fun h => absurd h.1 hInside⟩

/-- The value of a register: of the context, or of the frame. -/
structure HasValue (ctx : Context) (frame : Int) (regNum : Nat) (reg : Register)
    (value : Value) : Prop where
  definition : ctx.definitions[regNum]? = some reg
  top : OnTop frame → value = reg.value
  frame : ¬ OnTop frame → ∃ info, getFrameInfo ctx frame = .ok info ∧ value = info regNum

theorem getRegister_ok {bytes : List UInt8} : getRegister ctx frame regNum = .ok bytes ↔
    ¬ Forbidden REG_ACCESS_RD_RUNNING ctx ∧
      ∃ reg v, HasValue ctx frame regNum reg (.ok v) ∧ (List.range reg.size).map v = bytes := by
  constructor
  · intro h
    obtain ⟨⟨⟩, hAllowed, h⟩ := check_bind_ok h
    obtain ⟨reg, hReg, h⟩ := check_bind_ok h
    have hFree := refuseIf_ok.1 hAllowed
    refine ⟨hFree, reg, ?_⟩
    split at h
    · rename_i hTop
      obtain ⟨-, v, hValue, hBytes⟩ := readBytes_ok.1 h
      refine ⟨v, ⟨definition_ok.1 hReg, fun _ => hValue.symm, fun hNot => absurd hTop hNot⟩, ?_⟩
      simpa using hBytes
    · rename_i hTop
      obtain ⟨info, hInfo, h⟩ := check_bind_ok h
      obtain ⟨-, v, hValue, hBytes⟩ := readBytes_ok.1 h
      refine ⟨v, ⟨definition_ok.1 hReg, fun hNot => absurd hNot hTop,
        fun _ => ⟨info, ofResult_ok.1 hInfo, hValue.symm⟩⟩,
        ?_⟩
      simpa using hBytes
  · rintro ⟨hAllowed, reg, v, hValue, rfl⟩
    have hFirst :
      refuseIf (ctx.regAccess &&& REG_ACCESS_RD_RUNNING = 0 ∧ ¬ ctx.stopped ∧ ctx.hasState)
        (notStopped false) = .ok () := refuseIf_ok.2 hAllowed
    have hBytes {value : Value} (h : value = .ok v) :
        readBytes reg value 0 reg.size = .ok ((List.range reg.size).map v) :=
      readBytes_ok.2 ⟨by omega, v, h, by simp⟩
    rw [getRegister, hFirst, check_ok_bind, definition_ok.2 hValue.definition, check_ok_bind]
    split
    · exact hBytes (hValue.top ‹_›).symm
    · obtain ⟨info, hInfo, hSame⟩ := hValue.frame ‹_›
      rw [hInfo]
      exact hBytes hSame.symm

theorem setRegister_ok {data : List UInt8} : setRegister ctx regNum data = .ok () ↔
    ¬ Forbidden REG_ACCESS_WR_RUNNING ctx ∧ ∃ reg, ctx.definitions[regNum]? = some reg ∧
      data.length ≤ reg.size ∧ (data ≠ [] → reg.refusal = none) := by
  constructor
  · intro h
    obtain ⟨⟨⟩, hAllowed, h⟩ := check_bind_ok h
    obtain ⟨reg, hReg, h⟩ := check_bind_ok h
    obtain ⟨⟨⟩, hSize, h⟩ := check_bind_ok h
    have hFree := refuseIf_ok.1 hAllowed
    refine ⟨hFree, reg, definition_ok.1 hReg, not_lt.1 (refuseIf_ok.1 hSize), fun hData => ?_⟩
    rcases hRefusal : reg.refusal with _ | e
    · rfl
    · rw [hRefusal] at h
      dsimp only at h
      rw [if_pos (List.length_pos_iff.2 hData)] at h
      cases h
  · rintro ⟨hAllowed, reg, hReg, hSize, hRefusal⟩
    have hFirst :
      refuseIf (ctx.regAccess &&& REG_ACCESS_WR_RUNNING = 0 ∧ ¬ ctx.stopped ∧ ctx.hasState)
        (notStopped true) = .ok () := refuseIf_ok.2 hAllowed
    have hThird : refuseIf (data.length > reg.size) .invDataSize = .ok () :=
      refuseIf_ok.2 (not_lt.2 hSize)
    rw [setRegister, hFirst, check_ok_bind, definition_ok.2 hReg, check_ok_bind, hThird,
      check_ok_bind]
    rcases hNone : reg.refusal with _ | e
    · rfl
    · have hEmpty : data = [] := by
        by_contra hData
        rw [hRefusal hData] at hNone
        cases hNone
      rw [hEmpty]
      rfl

/-! ## One location -/

/-- What is known of a location that has been checked. -/
structure Passed (w : World) (setm : BitVec 32) (l : Location) (c : Checked) (ctx : Context)
    (frame : Int) :
    Prop where
  found : id2register w l.id = .ok (ctx, frame, c.regNum)
  location : c.location = l
  ctx_eq : c.ctx = ctx.halt
  definition : ctx.definitions[c.regNum]? = some c.reg
  size : (l.offs + l.size).toNat ≤ c.reg.size
  top : OnTop frame → c.frameInfo = none
  frame : ¬ OnTop frame → setm = 0 ∧ ∃ info, getFrameInfo ctx.halt frame = .ok info ∧
    c.frameInfo = some info

theorem checkLocation_halt_eq (h : id2register w l.id = .ok (ctx, frame, regNum)) :
    checkLocation (halt w) setm l = checkRegister setm l ctx.halt frame regNum := by
  rw [checkLocation_eq, access_of_halt h]
  rfl

theorem checkLocation_ok : checkLocation (halt w) setm l = .ok c ↔
    ∃ ctx frame, Passed w setm l c ctx frame := by
  constructor
  · intro h
    rcases hFound : id2register w l.id with e | ⟨ctx, frame, regNum⟩
    · have hHalt : id2register (halt w) l.id = .error e := by rw [id2register_halt, hFound]; rfl
      rw [checkLocation_eq, access_of_error hHalt] at h
      cases h
    · rw [checkLocation_halt_eq hFound] at h
      obtain ⟨⟨⟩, -, h⟩ := check_bind_ok h
      obtain ⟨reg, hReg, h⟩ := check_bind_ok h
      obtain ⟨⟨⟩, hSize, h⟩ := check_bind_ok h
      have hFits : (l.offs + l.size).toNat ≤ reg.size := not_lt.1 (refuseIf_ok.1 hSize)
      split at h
      · rename_i hTop
        cases h
        exact ⟨ctx, frame, hFound, rfl, rfl, definition_ok.1 hReg, hFits, fun _ => rfl,
          fun hNot => absurd hTop hNot⟩
      · rename_i hTop
        obtain ⟨⟨⟩, hGet, h⟩ := check_bind_ok h
        obtain ⟨info, hInfo, h⟩ := check_bind_ok h
        cases h
        exact ⟨ctx, frame, hFound, rfl, rfl, definition_ok.1 hReg, hFits,
          fun hNot => absurd hNot hTop,
          fun _ => ⟨not_not.1 (refuseIf_ok.1 hGet), info, ofResult_ok.1 hInfo, rfl⟩⟩
  -- the halted context passes the test of the run state
  · rintro ⟨ctx, frame, h⟩
    have hFirst : refuseIf (runningFlag ctx.halt setm = 0 ∧ ¬ ctx.halt.stopped ∧ ctx.halt.hasState)
        (notStopped (setm ≠ 0)) = .ok () := refuseIf_ok.2 fun hNot => runningFlag_ne_zero _ _ hNot.1
    have hReg : definition ctx.halt c.regNum = .ok c.reg := definition_ok.2 h.definition
    have hSize : refuseIf ((l.offs + l.size).toNat > c.reg.size) .invDataSize = .ok () :=
      refuseIf_ok.2 (not_lt.2 h.size)
    rw [checkLocation_halt_eq h.found, checkRegister, hFirst, check_ok_bind, hReg, check_ok_bind,
      hSize, check_ok_bind]
    obtain ⟨location, ctx', regNum, reg, frameInfo⟩ := c
    obtain ⟨hFound, rfl, rfl, hDefinition, hFits, hTop, hFrame⟩ := h
    split
    · have hNone : frameInfo = none := hTop ‹_›
      rw [hNone]
      rfl
    · obtain ⟨hGet, info, hInfo, hSome⟩ := hFrame ‹_›
      have hSame : frameInfo = some info := hSome
      have hMode : refuseIf (setm ≠ 0) .invContext = .ok () := refuseIf_ok.2 (not_not.2 hGet)
      rw [hMode, check_ok_bind, hInfo, hSame]
      rfl

section

variable {flag : BitVec 32}

theorem stoppedFor_cases (flag : BitVec 32) (ctx : Context) : ctx.stoppedFor flag = ctx.halt ∨
    ctx.stoppedFor flag = ctx := by
  unfold Context.stoppedFor
  split
  · exact .inl rfl
  · exact .inr rfl

theorem stoppedFor_definitions : (ctx.stoppedFor flag).definitions = ctx.definitions := by
  rcases stoppedFor_cases flag ctx with h | h <;> exact (congrArg Context.definitions h).trans rfl

theorem halt_stopped_of_stoppedFor (h : (ctx.stoppedFor flag).stopped) : ctx.halt.stopped := by
  have hHalt : ctx.halt.stopped = (ctx.stopped || ctx.canStop) := rfl
  rcases stoppedFor_cases flag ctx with hSame | hSame
  · rwa [hSame] at h
  · rw [hSame] at h
    rw [hHalt, h, Bool.true_or]

/-- A frame of the context is one of the stopped context. -/
theorem getFrameInfo_stoppedFor {info : StackFrame} :
    getFrameInfo (ctx.stoppedFor flag) frame = .ok info ↔
    getFrameInfo ctx.halt frame = .ok info ∧ (ctx.stoppedFor flag).stopped := by
  have hState : (ctx.stoppedFor flag).hasState = ctx.halt.hasState := by
    rcases stoppedFor_cases flag ctx with h | h <;> exact (congrArg Context.hasState h).trans rfl
  have hFrames : (ctx.stoppedFor flag).frames = ctx.halt.frames := by
    rcases stoppedFor_cases flag ctx with h | h <;> exact (congrArg Context.frames h).trans rfl
  rw [getFrameInfo_ok, getFrameInfo_ok, hState, hFrames]
  constructor
  · rintro ⟨hHas, hStopped, hInfo⟩
    exact ⟨⟨hHas, halt_stopped_of_stoppedFor hStopped, hInfo⟩, hStopped⟩
  · rintro ⟨⟨hHas, -, hInfo⟩, hStopped⟩
    exact ⟨hHas, hStopped, hInfo⟩

end

theorem get_of_passed {v : Nat → UInt8} (h : Passed w 0 l c ctx frame) (hAllowed : GetAllowed w l)
    (hValue : c.value = .ok v) : get w l.id = .ok ((List.range c.reg.size).map v) := by
  obtain ⟨hFree, hFrame⟩ := hAllowed ctx frame c.regNum h.found
  rw [get_eq h.found, getRegister_ok]
  refine ⟨hFree, c.reg, v, ⟨?_, fun hTop => ?_, fun hTop => ?_⟩, rfl⟩
  · rw [stoppedFor_definitions]
    exact h.definition
  · rw [← hValue, Checked.value, h.top hTop]
  · obtain ⟨-, info, hInfo, hSome⟩ := h.frame hTop
    have hStopped : (ctx.stoppedFor REG_ACCESS_RD_STOP).stopped := by
      rcases hFrame with hNone | hFirst | hStopped
      · exact absurd (.inl hNone) hTop
      · exact absurd (.inr hFirst) hTop
      · exact hStopped
    refine ⟨info, getFrameInfo_stoppedFor.2 ⟨hInfo, hStopped⟩, ?_⟩
    rw [← hValue, Checked.value, hSome]

theorem passed_of_get {bytes : List UInt8} (hInside : Inside w l) (h : get w l.id = .ok bytes) :
    GetAllowed w l ∧ ∃ c ctx frame v, Passed w 0 l c ctx frame ∧ c.value = .ok v ∧
      l.offs.toNat + l.size.toNat ≤ c.reg.size := by
  obtain ⟨ctx, frame, regNum, reg, hFound, hReg, hFits⟩ := hInside
  rw [get_eq hFound, getRegister_ok] at h
  obtain ⟨hFree, reg', v, hValue, -⟩ := h
  have hSame : reg' = reg := by
    have hDefinition := hValue.definition
    rw [stoppedFor_definitions, hReg] at hDefinition
    exact (Option.some.inj hDefinition).symm
  subst hSame
  have hSum : (l.offs + l.size).toNat ≤ reg'.size := by bv_omega
  by_cases hTop : OnTop frame
  · refine ⟨fun ctx' frame' regNum' hOther => ?_, ⟨l, ctx.halt, regNum, reg', none⟩, ctx, frame, v,
      ?_, ?_, hFits⟩
    · rw [hFound] at hOther
      cases hOther
      exact ⟨hFree, hTop.imp_right .inl⟩
    · exact ⟨hFound, rfl, rfl, hReg, hSum, fun _ => rfl, fun hNot => absurd hTop hNot⟩
    · exact (hValue.top hTop).symm
  · obtain ⟨info, hInfo, hRead⟩ := hValue.frame hTop
    obtain ⟨hHalted, hStopped⟩ := getFrameInfo_stoppedFor.1 hInfo
    refine ⟨fun ctx' frame' regNum' hOther => ?_, ⟨l, ctx.halt, regNum, reg', some info⟩, ctx,
      frame, v, ?_, ?_, hFits⟩
    · rw [hFound] at hOther
      cases hOther
      exact ⟨hFree, .inr (.inr hStopped)⟩
    · exact ⟨hFound, rfl, rfl, hReg, hSum, fun hNot => absurd hNot hTop,
        fun _ => ⟨rfl, info, hHalted, rfl⟩⟩
    · exact hRead.symm

theorem set_of_passed {bytes : List UInt8} (h : Passed w 1 l c ctx frame)
    (hAllowed : SetAllowed w l)
    (hBytes : bytes.length = l.size.toNat) (hFits : l.size.toNat ≤ c.reg.size)
    (hRefusal : l.size ≠ 0 → c.reg.refusal = none) : set w l.id bytes = .ok () := by
  have hTop : OnTop frame := by
    by_contra hTop
    have hMode := (h.frame hTop).1
    revert hMode
    decide
  have hFrame : refuseIf (frame ≥ 0 ∧ ¬ isTopFrame frame) .invContext = .ok () := by
    refine refuseIf_ok.2 fun hNot => ?_
    rcases hTop with hNone | hFirst
    · omega
    · exact hNot.2 hFirst
  rw [set_eq h.found, hFrame, check_ok_bind, setRegister_ok]
  refine ⟨hAllowed ctx frame c.regNum h.found, c.reg, ?_, by omega, fun hData =>
    hRefusal fun hZero => hData ?_⟩
  · rw [stoppedFor_definitions]
    exact h.definition
  · rw [hZero] at hBytes
    exact List.length_eq_zero_iff.1 hBytes

theorem setAllowed_of_set {bytes : List UInt8} (h : set w l.id bytes = .ok ()) :
    SetAllowed w l := by
  intro ctx frame regNum hFound
  rw [set_eq hFound] at h
  obtain ⟨⟨⟩, -, h⟩ := check_bind_ok h
  exact (setRegister_ok.1 h).1

/-! ## Reads -/

variable {locs : List Location}

theorem checkLocationList_ok {ls : List Checked} :
    checkLocationList w setm locs = .ok ls ↔
      List.Forall₂ (fun l c => checkLocation w setm l = .ok c) locs ls := by
  induction locs generalizing ls with
  | nil =>
    constructor
    · intro h
      cases h
      exact .nil
    · intro h
      cases h
      rfl
  | cons l locs ih =>
    constructor
    · intro h
      obtain ⟨c, hFirst, h⟩ := check_bind_ok h
      obtain ⟨cs, hRest, h⟩ := check_bind_ok h
      cases h
      exact .cons hFirst (ih.1 hRest)
    · intro h
      rcases h with _ | ⟨hFirst, hRest⟩
      rw [checkLocationList, hFirst, check_ok_bind, ih.2 hRest]
      rfl

/-- The bytes of a piece. -/
def Checked.bytes (c : Checked) : List UInt8 :=
  match c.value with
  | .error _ => []
  | .ok v => (List.range c.location.size.toNat).map fun i => v (c.location.offs.toNat + i)

theorem isOk_iff {ε α : Type} {x : Except ε α} : x.isOk ↔ ∃ a, x = .ok a := by
  rcases x with e | a
  · exact ⟨nofun, nofun⟩
  · exact ⟨fun _ => ⟨a, rfl⟩, fun _ => rfl⟩

section

variable {b : Buffer} {ls : List Checked}

/-- The buffer is long enough for the piece, and the piece lies in its register. -/
def Checked.Fits (c : Checked) (b : Buffer) : Prop :=
  b.bbf.length + c.location.size.toNat ≤
    (grow (BitVec.ofNat 32 b.bbf.length) b.bbfLen c.location.size).toNat ∧
    c.location.offs.toNat + c.location.size.toNat ≤ c.reg.size

/-- The buffer when a piece has been read. -/
def Buffer.after (b : Buffer) (c : Checked) : Buffer :=
  ⟨b.bbf ++ c.bytes, grow (BitVec.ofNat 32 b.bbf.length) b.bbfLen c.location.size,
    b.touched ++ [c.ctx]⟩

theorem readLocation_of_not_fits (h : ¬ c.Fits b) : (readLocation c b).1 = .error .fault := by
  unfold readLocation readBytes
  by_cases hRoom : b.bbf.length + c.location.size.toNat ≤
      (grow (BitVec.ofNat 32 b.bbf.length) b.bbfLen c.location.size).toNat
  · rw [if_pos hRoom, if_neg fun hInside => h ⟨hRoom, hInside⟩]
  · rw [if_neg hRoom]

theorem readLocation_of_ok (h : c.Fits b) (hValue : c.value.isOk) : readLocation c b =
    (.ok (), b.after c) := by
  unfold readLocation readBytes Buffer.after Checked.bytes
  obtain ⟨v, hValue⟩ := isOk_iff.1 hValue
  rw [if_pos h.1, if_pos h.2, hValue]
  rfl

theorem readLocation_of_error (h : c.Fits b) (hValue : ¬ c.value.isOk) :
    ∃ e, readLocation c b = (.error (.raise e), { b.after c with bbf := b.bbf }) := by
  unfold readLocation readBytes Buffer.after
  rw [if_pos h.1, if_pos h.2]
  rcases hRead : c.value with e | v
  · exact ⟨.error e, rfl⟩
  · exact absurd (isOk_iff.2 ⟨v, hRead⟩) hValue

theorem readLocation_touched (c : Checked) (b : Buffer) :
    b.touched <+: (readLocation c b).2.touched := by
  unfold readLocation
  dsimp only
  split
  · split
    · exact List.prefix_append ..
    · exact List.prefix_append ..
  · exact List.prefix_rfl

theorem readLocations_touched (ls : List Checked) (b : Buffer) :
    b.touched <+: (readLocations ls b).2.touched := by
  induction ls generalizing b with
  | nil => exact List.prefix_rfl
  | cons c ls ih =>
    have hFirst := readLocation_touched c b
    rcases hRun : readLocation c b with ⟨e | ⟨⟩, b'⟩
    · rw [hRun] at hFirst
      rw [readLocations, Attempt.bind_of_error hRun]
      exact hFirst
    · rw [hRun] at hFirst
      rw [readLocations, Attempt.bind_of_ok hRun]
      exact hFirst.trans (ih b')

theorem bytes_length (hValue : c.value.isOk) : c.bytes.length = c.location.size.toNat := by
  obtain ⟨v, hValue⟩ := isOk_iff.1 hValue
  rw [Checked.bytes, hValue]
  simp

/-- The list is read without a fault, and without an access to a context that forbids it. -/
theorem readsOk_iff (hFree : ∀ x ∈ b.touched, ¬ Forbidden REG_ACCESS_RD_RUNNING x) :
    ((readLocations ls b).1 ≠ .error .fault ∧
        ∀ x ∈ (readLocations ls b).2.touched, ¬ Forbidden REG_ACCESS_RD_RUNNING x) ↔
      ReadsOk b.bbf.length b.bbfLen ls := by
  induction ls generalizing b with
  | nil => exact ⟨fun _ => trivial, fun _ => ⟨nofun, hFree⟩⟩
  | cons c ls ih =>
    rw [ReadsOk]
    by_cases hFits : c.Fits b
    · rw [and_iff_right hFits.1, and_iff_right hFits.2]
      have hTouched : (∀ x ∈ (b.after c).touched, ¬ Forbidden REG_ACCESS_RD_RUNNING x) ↔
          ¬ Forbidden REG_ACCESS_RD_RUNNING c.ctx := by
        rw [Buffer.after, List.forall_mem_append, List.forall_mem_singleton]
        exact and_iff_right hFree
      by_cases hValue : c.value.isOk
      · have hRun := readLocation_of_ok hFits hValue
        have hLength : (b.after c).bbf.length = b.bbf.length + c.location.size.toNat := by
          rw [Buffer.after, List.length_append, bytes_length hValue]
        rw [readLocations, Attempt.bind_of_ok hRun]
        constructor
        · rintro ⟨hNoFault, hAll⟩
          have hBefore : ∀ x ∈ (b.after c).touched, ¬ Forbidden REG_ACCESS_RD_RUNNING x :=
            fun x hx =>
            hAll x ((readLocations_touched ls (b.after c)).subset hx)
          have hRest := (ih hBefore).1 ⟨hNoFault, hAll⟩
          rw [hLength] at hRest
          exact ⟨hTouched.1 hBefore, fun _ => hRest⟩
        · rintro ⟨hHere, hRest⟩
          rw [← hLength] at hRest
          exact (ih (hTouched.2 hHere)).2 (hRest hValue)
      -- the register gives an error: its context is touched, and nothing behind it
      · obtain ⟨e, hRun⟩ := readLocation_of_error hFits hValue
        rw [readLocations, Attempt.bind_of_error hRun]
        refine Iff.trans ?_ (and_iff_left (fun hOk => absurd hOk hValue)).symm
        exact (and_iff_right fun hSame => by cases hSame).trans hTouched
    -- the bytes do not fit: they are stored behind the buffer
    · have hFault := readLocation_of_not_fits hFits
      rcases hRun : readLocation c b with ⟨e, b'⟩
      rw [hRun] at hFault
      cases hFault
      rw [readLocations, Attempt.bind_of_error hRun]
      exact ⟨fun h => absurd rfl h.1, fun h => absurd ⟨h.1, h.2.1⟩ hFits⟩

/-- What is read, when no register cannot be. -/
theorem readLocations_ok (h : ReadsOk b.bbf.length b.bbfLen ls) :
    ((readLocations ls b).1 = .ok () ↔ ∀ c ∈ ls, c.value.isOk) ∧
      ((readLocations ls b).1 = .ok () →
        (readLocations ls b).2.bbf = b.bbf ++ ls.flatMap Checked.bytes) := by
  induction ls generalizing b with
  | nil => exact ⟨⟨fun _ => List.forall_mem_nil _, fun _ => rfl⟩, fun _ => (List.append_nil _).symm⟩
  | cons c ls ih =>
    obtain ⟨hRoom, hInside, -, hRest⟩ := h
    by_cases hValue : c.value.isOk
    · have hRun := readLocation_of_ok ⟨hRoom, hInside⟩ hValue
      have hLength : (b.after c).bbf.length = b.bbf.length + c.location.size.toNat := by
        rw [Buffer.after, List.length_append, bytes_length hValue]
      have hNext := hRest hValue
      rw [← hLength] at hNext
      obtain ⟨hOk, hBytes⟩ := ih hNext
      rw [readLocations, Attempt.bind_of_ok hRun, List.forall_mem_cons, and_iff_right hValue]
      refine ⟨hOk, fun hAll => ?_⟩
      rw [hBytes hAll, List.flatMap_cons, ← List.append_assoc]
      rfl
    · obtain ⟨e, hRun⟩ := readLocation_of_error ⟨hRoom, hInside⟩ hValue
      rw [readLocations, Attempt.bind_of_error hRun]
      exact ⟨⟨fun hOk => (by cases hOk), fun hAll => absurd (hAll c List.mem_cons_self) hValue⟩,
        fun hOk => by cases hOk⟩

end

/-! ## Writes -/

section

variable {s : Writes} {data : List UInt8} {pos : Nat} {ls : List Checked}

/-- The pieces that were written, with the positions of their bytes. -/
def Writes.places (s : Writes) : List (Location × Nat) := s.calls.map fun c =>
    (c.location, c.dataPos)

/-- The call for a piece. -/
def Writes.after (s : Writes) (c : Checked) : List Write := s.calls ++
    [⟨c.location, s.dataPos.toNat, c.ctx⟩]

def Writes.next (s : Writes) (c : Checked) : Writes := ⟨s.after c, s.dataPos + c.location.size⟩

theorem places_next (s : Writes) (c : Checked) :
    (s.next c).places = s.places ++ [(c.location, s.dataPos.toNat)] := by
  rw [Writes.places, Writes.next, Writes.after, List.map_append]
  rfl

def Checked.InData (c : Checked) (data : List UInt8) (s : Writes) : Prop :=
  s.dataPos.toNat + c.location.size.toNat ≤ data.length ∧
    c.location.offs.toNat + c.location.size.toNat ≤ c.reg.size

theorem writeLocation_of_empty (h : c.location.size = 0) : writeLocation data c s =
    (.ok (), s) := by
  rw [writeLocation, if_pos h]

theorem writeLocation_of_not_inData (hSize : c.location.size ≠ 0) (h : ¬ c.InData data s) :
    writeLocation data c s = (.error .fault, s) := by
  unfold Checked.InData at h
  rw [writeLocation, if_neg hSize, if_neg h]

theorem writeLocation_of_none (hSize : c.location.size ≠ 0) (h : c.InData data s)
    (hNone : c.reg.refusal = none) :
    writeLocation data c s = (.ok (), s.next c) := by
  unfold Checked.InData at h
  rw [writeLocation, if_neg hSize, if_pos h, hNone]
  rfl

theorem writeLocation_of_some {e : Failure} (hSize : c.location.size ≠ 0) (h : c.InData data s)
    (hSome : c.reg.refusal = some e) :
    writeLocation data c s = (.error (.raise (.error e)), { s with calls := s.after c }) := by
  unfold Checked.InData at h
  rw [writeLocation, if_neg hSize, if_pos h, hSome]
  rfl

theorem writeLocations_calls (ls : List Checked) (s : Writes) :
    s.calls <+: (writeLocations data ls s).2.calls := by
  induction ls generalizing s with
  | nil => exact List.prefix_rfl
  | cons c ls ih =>
    by_cases hSize : c.location.size = 0
    · rw [writeLocations, Attempt.bind_of_ok (writeLocation_of_empty hSize)]
      exact ih s
    · by_cases hFits : c.InData data s
      · rcases hRefusal : c.reg.refusal with _ | e
        · rw [writeLocations, Attempt.bind_of_ok (writeLocation_of_none hSize hFits hRefusal)]
          have hNext : s.calls <+: (s.next c).calls := List.prefix_append ..
          exact hNext.trans (ih (s.next c))
        · rw [writeLocations, Attempt.bind_of_error (writeLocation_of_some hSize hFits hRefusal)]
          exact List.prefix_append ..
      · rw [writeLocations, Attempt.bind_of_error (writeLocation_of_not_inData hSize hFits)]

theorem slices_of_empty (h : l.size = 0) : slices pos (l :: locs) = slices pos locs := by
  rw [slices, if_pos h, h]
  rfl

theorem slices_of_not_empty (h : l.size ≠ 0) :
    slices pos (l :: locs) = (l, pos) :: slices (pos + l.size.toNat) locs := by
  rw [slices, if_neg h]
  rfl

/-- The position of a call is the right one only below 4 GiB. -/
theorem pos_of_prefix {calls : List Write} {rest : List (Location × Nat)}
    (hCall : s.after c <+: calls)
    (h : calls.map (fun c => (c.location, c.dataPos)) <+: s.places ++ (c.location, pos) :: rest) :
    s.dataPos.toNat = pos := by
  have hPlaces :
    s.places ++ [(c.location, s.dataPos.toNat)] <+: s.places ++ (c.location, pos) :: rest := by
    rw [← places_next]
    exact (hCall.map fun c => (c.location, c.dataPos)).trans h
  rw [List.prefix_append_right_inj] at hPlaces
  exact congrArg Prod.snd (List.cons_prefix_cons.1 hPlaces).1

/-- The list is written without a fault, every call is for its own slice, and no context is accessed
that forbids it. -/
theorem writesOk_iff (hFree : ∀ x ∈ s.calls, ¬ Forbidden REG_ACCESS_WR_RUNNING x.ctx)
    (hPos : s.dataPos = BitVec.ofNat 32 pos) :
    ((writeLocations data ls s).1 ≠ .error .fault ∧
        (writeLocations data ls s).2.places <+: s.places ++ slices pos (ls.map Checked.location) ∧
        ∀ x ∈ (writeLocations data ls s).2.calls, ¬ Forbidden REG_ACCESS_WR_RUNNING x.ctx) ↔
      WritesOk data pos ls := by
  induction ls generalizing s pos with
  | nil => exact ⟨fun _ => trivial, fun _ => ⟨nofun, List.prefix_append .., hFree⟩⟩
  | cons c ls ih =>
    rw [WritesOk, List.map_cons]
    by_cases hSize : c.location.size = 0
    · rw [if_pos hSize, writeLocations, Attempt.bind_of_ok (writeLocation_of_empty hSize),
        slices_of_empty hSize]
      exact ih hFree hPos
    · rw [if_neg hSize, slices_of_not_empty hSize]
      have hHere : (∀ x ∈ s.after c, ¬ Forbidden REG_ACCESS_WR_RUNNING x.ctx) ↔
          ¬ Forbidden REG_ACCESS_WR_RUNNING c.ctx := by
        rw [Writes.after, List.forall_mem_append, List.forall_mem_singleton]
        exact and_iff_right hFree
      -- the sum of 32 bits in the code is the true position as long as it is below `2 ^ 32`
      have hLow : pos < 2 ^ 32 ↔ s.dataPos.toNat = pos := by
        rw [hPos, BitVec.toNat_ofNat]
        omega
      by_cases hFits : c.InData data s
      · rcases hRefusal : c.reg.refusal with _ | e
        · have hRun := writeLocation_of_none hSize hFits hRefusal
          rw [writeLocations, Attempt.bind_of_ok hRun]
          have hNextPos :
            s.dataPos + c.location.size = BitVec.ofNat 32 (pos + c.location.size.toNat) := by
            rw [hPos]
            bv_omega
          have hCalls : s.after c <+: (writeLocations data ls (s.next c)).2.calls :=
            writeLocations_calls ls (s.next c)
          have hPlaces (hSame : s.dataPos.toNat = pos) : (s.next c).places ++
              slices (pos + c.location.size.toNat) (ls.map Checked.location) =
              s.places ++ (c.location, pos) :: slices (pos + c.location.size.toNat)
                (ls.map Checked.location) := by
            rw [places_next, hSame, List.append_assoc]
            rfl
          constructor
          · rintro ⟨hNoFault, hPrefix, hAll⟩
            have hSame := pos_of_prefix hCalls hPrefix
            have hBefore : ∀ x ∈ (s.next c).calls, ¬ Forbidden REG_ACCESS_WR_RUNNING x.ctx :=
              fun x hx =>
              hAll x (hCalls.subset hx)
            rw [← hPlaces hSame] at hPrefix
            exact ⟨hLow.2 hSame, hSame ▸ hFits.1, hFits.2, hHere.1 hBefore,
              fun _ => (ih hBefore hNextPos).1 ⟨hNoFault, hPrefix, hAll⟩⟩
          · rintro ⟨hBelow, -, -, hAllowed, hRest⟩
            rw [← hPlaces (hLow.1 hBelow)]
            have hBefore : ∀ x ∈ (s.next c).calls, ¬ Forbidden REG_ACCESS_WR_RUNNING x.ctx :=
              hHere.2 hAllowed
            exact (ih hBefore hNextPos).2 (hRest rfl)
        -- the register refuses: the call is made, and nothing behind it
        · have hRun := writeLocation_of_some hSize hFits hRefusal
          rw [writeLocations, Attempt.bind_of_error hRun]
          constructor
          · rintro ⟨-, hPrefix, hAll⟩
            have hSame := pos_of_prefix List.prefix_rfl hPrefix
            exact ⟨hLow.2 hSame, hSame ▸ hFits.1, hFits.2, hHere.1 hAll, fun hSame =>
              by cases hSame⟩
          · rintro ⟨hBelow, -, -, hAllowed, -⟩
            refine ⟨fun hSame => (by cases hSame), ?_, hHere.2 hAllowed⟩
            have hSame := places_next s c
            rw [hLow.1 hBelow] at hSame
            have hPlaces :
              { s with calls := s.after c : Writes }.places = s.places ++ [(c.location, pos)] :=
              hSame
            rw [hPlaces, List.prefix_append_right_inj, List.cons_prefix_cons]
            exact ⟨rfl, List.nil_prefix⟩
      -- the data is too short: the code reads outside of it
      · have hRun := writeLocation_of_not_inData hSize hFits
        rw [writeLocations, Attempt.bind_of_error hRun]
        refine ⟨fun h => absurd rfl h.1, fun h => absurd ⟨?_, h.2.2.1⟩ hFits⟩
        rw [hLow.1 h.1]
        exact h.2.1

/-- All pieces are written, when no register refuses it. -/
theorem writeLocations_ok (hPos : s.dataPos = BitVec.ofNat 32 pos) (h : WritesOk data pos ls) :
    ((writeLocations data ls s).1 = .ok () ↔ ∀ c ∈ ls, c.location.size ≠ 0 → c.reg.refusal = none) ∧
      ((writeLocations data ls s).1 = .ok () →
        (writeLocations data ls s).2.places =
          s.places ++ slices pos (ls.map Checked.location)) := by
  induction ls generalizing s pos with
  | nil => exact ⟨⟨fun _ => List.forall_mem_nil _, fun _ => rfl⟩, fun _ => (List.append_nil _).symm⟩
  | cons c ls ih =>
    rw [WritesOk] at h
    rw [List.map_cons, List.forall_mem_cons]
    by_cases hSize : c.location.size = 0
    · rw [if_pos hSize] at h
      rw [writeLocations, Attempt.bind_of_ok (writeLocation_of_empty hSize), slices_of_empty hSize]
      obtain ⟨hOk, hPlaces⟩ := ih hPos h
      exact ⟨hOk.trans (and_iff_right fun hNot => absurd hSize hNot).symm, hPlaces⟩
    · rw [if_neg hSize] at h
      obtain ⟨hBelow, hData, hInside, -, hRest⟩ := h
      have hSame : s.dataPos.toNat = pos := by
        rw [hPos, BitVec.toNat_ofNat]
        omega
      have hFits : c.InData data s := ⟨hSame ▸ hData, hInside⟩
      rw [slices_of_not_empty hSize]
      rcases hRefusal : c.reg.refusal with _ | e
      · have hNextPos : (s.next c).dataPos = BitVec.ofNat 32 (pos + c.location.size.toNat) := by
          rw [Writes.next, hPos]
          bv_omega
        obtain ⟨hOk, hPlaces⟩ := ih hNextPos (hRest hRefusal)
        rw [writeLocations, Attempt.bind_of_ok (writeLocation_of_none hSize hFits hRefusal)]
        refine ⟨hOk.trans (and_iff_right fun _ => rfl).symm, fun hAll => ?_⟩
        rw [hPlaces hAll, places_next, hSame, List.append_assoc]
        rfl
      · rw [writeLocations, Attempt.bind_of_error (writeLocation_of_some hSize hFits hRefusal)]
        exact ⟨⟨fun hOk => (by cases hOk), fun hAll => absurd (hAll.1 hSize) fun hNone =>
          by cases hNone⟩, fun hOk => by cases hOk⟩

end

/-! ## When the commands agree -/

section

variable {locs : List Location} {ls : List Checked} {bbfLen : BitVec 32} {data : List UInt8}

theorem passed_location (h : checkLocation (halt w) setm l = .ok c) : c.location = l := by
  obtain ⟨ctx, frame, hPassed⟩ := checkLocation_ok.1 h
  exact hPassed.location

theorem locations_eq (h : List.Forall₂ (fun l c => checkLocation (halt w) setm l = .ok c) locs ls) :
    ls.map Checked.location = locs := by
  induction h with
  | nil => rfl
  | cons hFirst _ ih => rw [List.map_cons, ih, passed_location hFirst]

/-- The pieces of a list that is read lie in their registers. -/
theorem readsOk_inside {pos : Nat} (h : ReadsOk pos bbfLen ls) (hValues : ∀ c ∈ ls, c.value.isOk) :
    ∀ c ∈ ls, c.location.offs.toNat + c.location.size.toNat ≤ c.reg.size := by
  induction ls generalizing pos bbfLen with
  | nil => exact List.forall_mem_nil _
  | cons c ls ih =>
    obtain ⟨hFirst, hOthers⟩ := List.forall_mem_cons.1 hValues
    obtain ⟨-, hInside, -, hRest⟩ := h
    exact List.forall_mem_cons.2 ⟨hInside, ih (hRest hFirst) hOthers⟩

/-- `get` returns the whole register, of which the piece is a slice. -/
theorem bytes_eq (h : checkLocation (halt w) 0 l = .ok c) (hAllowed : GetAllowed w l)
    (hValue : c.value.isOk)
    (hInside : c.location.offs.toNat + c.location.size.toNat ≤ c.reg.size) :
    (∃ v, get w l.id = .ok v) ∧ c.bytes =
    ((valueOf w l.id).drop l.offs.toNat).take l.size.toNat := by
  obtain ⟨ctx, frame, hPassed⟩ := checkLocation_ok.1 h
  obtain ⟨v, hValue⟩ := isOk_iff.1 hValue
  have hGet := get_of_passed hPassed hAllowed hValue
  refine ⟨⟨_, hGet⟩, ?_⟩
  have hWhole : valueOf w l.id = (List.range c.reg.size).map v := by
    rw [valueOf, hGet]
    rfl
  rw [hPassed.location] at hInside
  rw [hWhole, Checked.bytes, hValue, hPassed.location]
  refine List.ext_getElem ?_ fun i hi hi' => ?_
  · simp
    omega
  · simp

theorem forall₂_mem_left {R : α → β → Prop} {as : List α} {bs : List β} (h : List.Forall₂ R as bs) :
    ∀ a ∈ as, ∃ b ∈ bs, R a b := by
  induction h with
  | nil => exact nofun
  | cons hFirst _ ih =>
    refine List.forall_mem_cons.2 ⟨⟨_, List.mem_cons_self, hFirst⟩, fun a hMem => ?_⟩
    obtain ⟨b, hMem, hRel⟩ := ih a hMem
    exact ⟨b, List.mem_cons_of_mem _ hMem, hRel⟩

theorem forall₂_mem_right {R : α → β → Prop} {as : List α} {bs : List β}
    (h : List.Forall₂ R as bs) :
    ∀ b ∈ bs, ∃ a ∈ as, R a b :=
  forall₂_mem_left h.flip

/-- For a list that has been checked, `get` is allowed for each register and returns it. -/
theorem gets_iff (hList : List.Forall₂ (fun l c => checkLocation (halt w) 0 l = .ok c) locs ls)
    (hReads : ReadsOk 0 bbfLen ls) : (∀ l ∈ locs, Inside w l ∧ ∃ v, get w l.id = .ok v) ↔
      (∀ c ∈ ls, c.value.isOk) ∧ ∀ l ∈ locs, GetAllowed w l := by
  constructor
  · intro h
    constructor
    · intro c hMem
      obtain ⟨l, hMem, hCheck⟩ := forall₂_mem_right hList c hMem
      obtain ⟨hInside, v, hGet⟩ := h l hMem
      obtain ⟨-, c', ctx, frame, v, hPassed, hValue, -⟩ := passed_of_get hInside hGet
      have hSame := checkLocation_ok.2 ⟨ctx, frame, hPassed⟩
      rw [hCheck] at hSame
      cases hSame
      exact isOk_iff.2 ⟨v, hValue⟩
    · intro l hMem
      obtain ⟨hInside, v, hGet⟩ := h l hMem
      exact (passed_of_get hInside hGet).1
  · rintro ⟨hValues, hAllowed⟩ l hMem
    obtain ⟨c, hMem', hCheck⟩ := forall₂_mem_left hList l hMem
    have hInside := readsOk_inside hReads hValues c hMem'
    obtain ⟨ctx, frame, hPassed⟩ := checkLocation_ok.1 hCheck
    refine ⟨⟨ctx, frame, c.regNum, c.reg, hPassed.found, hPassed.definition, ?_⟩, ?_⟩
    · rwa [hPassed.location] at hInside
    · exact (bytes_eq hCheck (hAllowed l hMem) (hValues c hMem') hInside).1

/-- A list is checked, when `get` would return its registers. -/
theorem checked_of_gets (h : ∀ l ∈ locs, Inside w l ∧ ∃ v, get w l.id = .ok v) :
    ∃ ls, checkLocationList (halt w) 0 locs = .ok ls := by
  induction locs with
  | nil => exact ⟨[], rfl⟩
  | cons l locs ih =>
    obtain ⟨⟨hInside, v, hGet⟩, hRest⟩ := List.forall_mem_cons.1 h
    obtain ⟨-, c, ctx, frame, -, hPassed, -⟩ := passed_of_get hInside hGet
    obtain ⟨ls, hLs⟩ := ih hRest
    exact ⟨c :: ls, checkLocationList_ok.2
      (.cons (checkLocation_ok.2 ⟨ctx, frame, hPassed⟩) (checkLocationList_ok.1 hLs))⟩

theorem bytes_flatMap (hList : List.Forall₂ (fun l c => checkLocation (halt w) 0 l = .ok c) locs ls)
    (hBytes : ∀ l c, l ∈ locs → c ∈ ls → checkLocation (halt w) 0 l = .ok c →
      c.bytes = ((valueOf w l.id).drop l.offs.toNat).take l.size.toNat) :
    ls.flatMap Checked.bytes = locs.flatMap fun l =>
      ((valueOf w l.id).drop l.offs.toNat).take l.size.toNat := by
  induction hList with
  | nil => rfl
  | cons hFirst _ ih =>
    rw [List.flatMap_cons, List.flatMap_cons,
      hBytes _ _ List.mem_cons_self List.mem_cons_self hFirst,
      ih fun l c hl hc => hBytes l c (List.mem_cons_of_mem _ hl) (List.mem_cons_of_mem _ hc)]

theorem getmAgrees_iff (w : World) (bbfLen : BitVec 32) (locs : List Location) :
    GetmAgrees w bbfLen locs ↔ GetmOk w bbfLen locs := by
  rw [GetmOk]
  -- the list is refused as a whole, or all of its locations are checked
  rcases hCheck : checkLocationList (halt w) 0 locs with e | ls
  · have hRun : getm w bbfLen locs = (.error e, ⟨[], bbfLen, []⟩) := by
      rw [getm_eq, commandGetmCacheClient, hCheck]
    rcases e with a | _
    · refine ⟨fun _ => trivial, fun _ => ⟨?_, ⟨?_, fun h => ?_⟩, ?_, ?_⟩⟩
      · rw [hRun]
        exact nofun
      · rw [hRun]
        exact nofun
      · obtain ⟨ls, hLs⟩ := checked_of_gets h
        rw [hCheck] at hLs
        cases hLs
      · rw [hRun]
        exact nofun
      · rw [hRun]
        exact nofun
    · refine ⟨fun h => h.noFault ?_, False.elim⟩
      rw [hRun]
  · have hRun : getm w bbfLen locs = readLocations ls ⟨[], bbfLen, []⟩ := by
      rw [getm_eq, commandGetmCacheClient, hCheck]
    have hList := checkLocationList_ok.1 hCheck
    have hReadsIff : _ ↔ ReadsOk 0 bbfLen ls := readsOk_iff (b := ⟨[], bbfLen, []⟩) nofun
    constructor
    · intro h
      have hReads := hReadsIff.1 ⟨hRun ▸ h.noFault, hRun ▸ h.allowed⟩
      refine ⟨hReads, fun hValues => ?_⟩
      have hOk := (readLocations_ok (b := ⟨[], bbfLen, []⟩) hReads).1.2 hValues
      rw [← hRun] at hOk
      exact ((gets_iff hList hReads).1 (h.ok_iff.1 hOk)).2
    · rintro ⟨hReads, hAllowed⟩
      obtain ⟨hNoFault, hFree⟩ := hReadsIff.2 hReads
      obtain ⟨hOk, hBytes⟩ := readLocations_ok (b := ⟨[], bbfLen, []⟩) hReads
      rw [← hRun] at hNoFault hFree hOk hBytes
      refine ⟨hNoFault, ?_, fun h => ?_, hFree⟩
      · rw [hOk, gets_iff hList hReads]
        exact ⟨fun h => ⟨h, hAllowed h⟩, fun h => h.1⟩
      · have hValues := hOk.1 h
        rw [hBytes h, List.nil_append]
        refine bytes_flatMap hList fun l c hl hc hLocation => ?_
        exact (bytes_eq hLocation (hAllowed hValues l hl) (hValues c hc)
          (readsOk_inside hReads hValues c hc)).2

/-- The pieces of a list that is written lie in their registers; those that are empty have been
checked. -/
theorem writesOk_inside {pos : Nat} (h : WritesOk data pos ls)
    (hRefusals : ∀ c ∈ ls, c.location.size ≠ 0 → c.reg.refusal = none) :
    ∀ c ∈ ls, c.location.size ≠ 0 → c.location.offs.toNat + c.location.size.toNat ≤ c.reg.size := by
  induction ls generalizing pos with
  | nil => exact List.forall_mem_nil _
  | cons c ls ih =>
    obtain ⟨hFirst, hOthers⟩ := List.forall_mem_cons.1 hRefusals
    rw [WritesOk] at h
    rw [List.forall_mem_cons]
    by_cases hSize : c.location.size = 0
    · rw [if_pos hSize] at h
      exact ⟨fun hNot => absurd hSize hNot, ih h hOthers⟩
    · rw [if_neg hSize] at h
      obtain ⟨-, -, hInside, -, hRest⟩ := h
      exact ⟨fun _ => hInside, ih (hRest (hFirst hSize)) hOthers⟩

theorem set_of_checked (bytes : List UInt8) (h : checkLocation (halt w) 1 l = .ok c)
    (hAllowed : SetAllowed w l)
    (hRefusal : c.location.size ≠ 0 → c.reg.refusal = none)
    (hInside : c.location.size ≠ 0 → c.location.offs.toNat + c.location.size.toNat ≤ c.reg.size) :
    Inside w l ∧ (bytes.length = l.size.toNat → set w l.id bytes = .ok ()) := by
  obtain ⟨ctx, frame, hPassed⟩ := checkLocation_ok.1 h
  rw [hPassed.location] at hRefusal hInside
  have hFits : l.offs.toNat + l.size.toNat ≤ c.reg.size := by
    by_cases hSize : l.size = 0
    · have hSum := hPassed.size
      rw [hSize] at hSum ⊢
      simpa using hSum
    · exact hInside hSize
  refine ⟨⟨ctx, frame, c.regNum, c.reg, hPassed.found, hPassed.definition, hFits⟩, fun hBytes => ?_⟩
  exact set_of_passed hPassed hAllowed hBytes (by omega) hRefusal

theorem setmAgrees_iff (w : World) (locs : List Location) (data : List UInt8) :
    SetmAgrees w locs data ↔ SetmOk w locs data := by
  rw [SetmOk]
  -- the list is refused as a whole, or all of its locations are checked
  rcases hCheck : checkLocationList (halt w) 1 locs with e | ls
  · have hRun : setm w locs data = (.error e, ⟨[], 0⟩) := by
      rw [setm_eq, commandSetmCacheClient, hCheck]
    rcases e with a | _
    · refine ⟨fun _ => trivial, fun _ => ⟨?_, ?_, ?_, ?_, ?_⟩⟩
      · rw [hRun]
        exact nofun
      · rw [hRun]
        exact nofun
      · rw [hRun]
        exact nofun
      · rw [hRun]
        exact List.nil_prefix
      · rw [hRun]
        exact nofun
    · refine ⟨fun h => h.noFault ?_, False.elim⟩
      rw [hRun]
  · have hRun : setm w locs data = writeLocations data ls ⟨[], 0⟩ := by
      rw [setm_eq, commandSetmCacheClient, hCheck]
    have hList := checkLocationList_ok.1 hCheck
    have hLocs := locations_eq hList
    have hWritesIff : _ ↔ WritesOk data 0 ls := writesOk_iff (s := ⟨[], 0⟩) nofun rfl
    rw [hLocs, ← hRun] at hWritesIff
    constructor
    · intro h
      have hWrites := hWritesIff.1 ⟨h.noFault, h.others, h.allowed⟩
      refine ⟨hWrites, fun hRefusals => ?_⟩
      have hOk := (writeLocations_ok (s := ⟨[], 0⟩) rfl hWrites).1.2 hRefusals
      rw [← hRun] at hOk
      obtain ⟨hLength, hSets⟩ := h.ok hOk
      refine ⟨hLength, fun l hMem => ?_⟩
      have hSet := (hSets l hMem).2 (List.replicate l.size.toNat 0) (List.length_replicate ..)
      exact setAllowed_of_set hSet
    · rintro ⟨hWrites, hAllowed⟩
      obtain ⟨hNoFault, hOthers, hFree⟩ := hWritesIff.2 hWrites
      obtain ⟨hOk, hPlaces⟩ := writeLocations_ok (s := ⟨[], 0⟩) rfl hWrites
      rw [← hRun] at hOk hPlaces
      rw [hLocs] at hPlaces
      refine ⟨hNoFault, fun h => ?_, hPlaces, hOthers, hFree⟩
      have hRefusals := hOk.1 h
      obtain ⟨hLength, hSets⟩ := hAllowed hRefusals
      refine ⟨hLength, fun l hMem => ?_⟩
      obtain ⟨c, hMem', hLocation⟩ := forall₂_mem_left hList l hMem
      have hEach (bytes : List UInt8) :=
        set_of_checked bytes hLocation (hSets l hMem) (hRefusals c hMem')
        (writesOk_inside hWrites hRefusals c hMem')
      exact ⟨(hEach []).1, fun bytes => (hEach bytes).2⟩

/-- The list commands agree with the commands for one register exactly when the list is refused, or
its pieces and the data are right and the flags of its contexts let each register be accessed. -/
theorem registers_agree_iff (w : World) (bbfLen : BitVec 32) (locs : List Location)
    (data : List UInt8) :
    (GetmAgrees w bbfLen locs ↔ GetmOk w bbfLen locs) ∧
    (SetmAgrees w locs data ↔ SetmOk w locs data) :=
  ⟨getmAgrees_iff w bbfLen locs, setmAgrees_iff w locs data⟩

end

/-- A context "P" with one register of 8 bytes; its flags neither allow an access while it is
running nor ask for a stop. -/
def sampleContext (stopped : Bool) : Context where
  id := [0x50]
  exited := false
  exiting := false
  stopped := stopped
  hasState := true
  cannotStop := false
  stopGroup := 0
  regAccess := 0
  definitions := [⟨8, .ok UInt8.ofNat, none⟩]
  frames := fun _ => .error .invContext

/-- A piece of the register "R0.P". -/
def samplePiece (offs size : BitVec 32) : Location := ⟨[0x52, 0x30, 0x2e, 0x50], offs, size⟩

/-- The running context is stopped for `getm`, but not for `get`; a sum that overflows passes the
check; and the data for `setm` may be too short. -/
theorem not_agree : ¬ GetmAgrees [sampleContext false] 0x100 [samplePiece 0 8] ∧
    ¬ GetmAgrees [sampleContext true] 0x100 [samplePiece 0xfffffffc 8] ∧
    ¬ SetmAgrees [sampleContext true] [samplePiece 0 8] [] := by
  refine ⟨fun h => ?_, fun h => h.noFault (by decide +kernel),
    fun h => h.noFault (by decide +kernel)⟩
  have hOk : (getm [sampleContext false] 0x100 [samplePiece 0 8]).1 = .ok () := by decide +kernel
  obtain ⟨-, v, hGet⟩ := h.ok_iff.1 hOk (samplePiece 0 8) List.mem_cons_self
  have hRefused : get [sampleContext false] (samplePiece 0 8).id = refuse (notStopped false) := by
    decide +kernel
  rw [hRefused] at hGet
  cases hGet

end TcfAgent.RegisterCommands
