import TcfAgent.Services.RegisterCommands

/-!
# Register commands that wait

A command waits until the groups of its contexts are stopped. It ends as if it were tried once, in a
world where all groups are stopped; a command for one register may also not have to wait.

Main results:

* `getm_eq`, `setm_eq` — the list commands;
* `get_eq`, `set_eq`   — the commands for one register.
-/

namespace TcfAgent.RegisterCommands

open TcfAgent.Lib

variable {w : World} {c : Context} {grp : Nat} {id : Text}

/-! ## Groups that are stopped -/

def Context.isRunning (c : Context) : Bool := !c.stopped && c.canStop

theorem halt_of_not_running (h : ¬ c.isRunning) : c.halt = c := by
  have hStopped : (c.stopped || c.canStop) = c.stopped := by
    revert h
    unfold Context.isRunning
    cases c.stopped <;> simp
  rw [Context.halt, hStopped]

theorem halt_canStop (c : Context) : c.halt.canStop = c.canStop := rfl

theorem halt_not_running (c : Context) : ¬ c.halt.isRunning := by
  have hStopped : c.halt.stopped = (c.stopped || c.canStop) := rfl
  rw [Context.isRunning, hStopped, halt_canStop]
  cases c.stopped <;> cases c.canStop <;> simp

theorem halt_idem (c : Context) : c.halt.halt = c.halt := halt_of_not_running (halt_not_running c)

theorem isAllStopped_iff : isAllStopped w grp ↔ ∀ c ∈ w, c.stopGroup = grp → ¬ c.isRunning := by
  rw [isAllStopped, List.all_eq_true]
  refine forall₂_congr fun c _ => ?_
  unfold Context.isRunning Context.canStop
  by_cases hGroup : c.stopGroup = grp
  · simp only [hGroup, bne_self_eq_false, Bool.or_false, true_imp_iff]
    cases c.stopped <;> cases c.hasState <;> cases c.exited <;> cases c.exiting <;> simp
  · simp [hGroup]

theorem isAllStopped_halt (w : World) (grp : Nat) : isAllStopped (halt w) grp := by
  rw [isAllStopped_iff]
  intro c hc _
  obtain ⟨c', -, rfl⟩ := List.mem_map.1 hc
  exact halt_not_running c'

theorem halt_stop (w : World) (grp : Nat) : halt (stop grp w) = halt w := by
  rw [halt, stop, List.map_map]
  refine List.map_congr_left fun c _ => ?_
  rw [Function.comp_apply]
  split
  · exact halt_idem c
  · rfl

/-- The contexts that will be stopped. -/
def toDo (w : World) : Nat := w.countP Context.isRunning

theorem toDo_le (w : World) : toDo w ≤ w.length := List.countP_le_length

theorem toDo_stop (h : ¬ isAllStopped w grp) : toDo (stop grp w) < toDo w := by
  rw [isAllStopped_iff] at h
  push Not at h
  obtain ⟨c, hMem, hGroup, hRunning⟩ := h
  obtain ⟨before, behind, rfl⟩ := List.append_of_mem hMem
  have hLess (c : Context) : (if c.stopGroup = grp then c.halt else c).isRunning → c.isRunning := by
    split
    · exact fun hHalt => absurd hHalt (halt_not_running c)
    · exact fun hSame => hSame
  have hBefore : toDo (stop grp before) ≤ toDo before := by
    rw [toDo, stop, List.countP_map]
    exact List.countP_mono_left fun c _ => hLess c
  have hBehind : toDo (stop grp behind) ≤ toDo behind := by
    rw [toDo, stop, List.countP_map]
    exact List.countP_mono_left fun c _ => hLess c
  have hHalt := halt_not_running c
  unfold toDo stop at *
  rw [List.map_append, List.map_cons, List.countP_append, List.countP_append, if_pos hGroup,
    List.countP_cons_of_neg hHalt, List.countP_cons_of_pos hRunning]
  omega

/-! ## Contexts of a world -/

section

variable {f : Context → Context} {ctx : Context} {frame : Int} {regNum : Nat}

theorem id2ctx_map (hId : ∀ c, (f c).id = c.id) : id2ctx (w.map f) id = (id2ctx w id).map f := by
  rw [id2ctx, id2ctx, List.find?_map]
  congr 2
  funext c
  rw [Function.comp_apply, hId]

theorem id2register_map (hId : ∀ c, (f c).id = c.id) (hExited : ∀ c, (f c).exited = c.exited) :
    id2register (w.map f) id = (id2register w id).map fun r => (f r.1, r.2) := by
  unfold id2register
  rcases id2regNum id with _ | ⟨frame, num, ctxId⟩
  · rfl
  · dsimp only
    rw [id2ctx_map hId]
    rcases id2ctx w ctxId with _ | c
    · rfl
    · dsimp only [Option.map_some]
      rw [hExited]
      split <;> rfl

theorem id2register_ok (h : id2register w id = .ok (ctx, frame, regNum)) :
    ctx ∈ w ∧ ctx.exited = false := by
  unfold id2register id2ctx at h
  split at h
  · cases h
  · split at h
    · cases h
    · rename_i hFound
      split at h
      · cases h
      · rename_i hExited
        cases h
        exact ⟨List.mem_of_find?_eq_some hFound, by simpa using hExited⟩

theorem id2register_halt : id2register (halt w) id = (id2register w id).map fun r =>
    (r.1.halt, r.2) :=
  id2register_map (fun _ => rfl) fun _ => rfl

theorem id2register_stop : id2register (stop grp w) id =
    (id2register w id).map fun r => (if r.1.stopGroup = grp then r.1.halt else r.1, r.2) := by
  refine id2register_map (fun c => ?_) fun c => ?_
  · split <;> rfl
  · split <;> rfl

theorem halt_of_allStopped (h : id2register w id = .ok (ctx, frame, regNum))
    (hAll : isAllStopped w ctx.stopGroup) :
    ctx.halt = ctx :=
  halt_of_not_running (isAllStopped_iff.1 hAll ctx (id2register_ok h).1 rfl)

end

/-! ## What waits -/

section

variable {α β : Type}

theorem check_ok_bind (a : α) (f : α → Check β) : ((.ok a : Check α) >>= f) = f a := rfl

theorem waits_error (e : Stop Abort) : waits (.error e : Check α) = waits (.error e : Check β) := by
  rcases e with (e | grp) | _ <;> rfl

variable {x : Check α} {f : α → Check β}

/-- A program waits in its first part or in its second one. -/
theorem waits_bind_cases (h : waits (x >>= f) = some grp) :
    waits x = some grp ∨ ∃ a, x = .ok a ∧ waits (f a) = some grp := by
  rcases x with e | a
  · exact .inl ((waits_error e).trans h)
  · exact .inr ⟨a, rfl, h⟩

theorem waits_bind_some (hx : waits x = none) (h : waits (x >>= f) = some grp) :
    ∃ a, x = .ok a ∧ waits (f a) = some grp := by
  rcases waits_bind_cases h with hFirst | hSecond
  · rw [hx] at hFirst
    cases hFirst
  · exact hSecond

theorem waits_bind (hx : waits x = none)
    (hf : ∀ a, x = .ok a → waits (f a) = none) : waits (x >>= f) = none := by
  rw [Option.eq_none_iff_forall_ne_some]
  intro grp h
  obtain ⟨a, hFirst, hWait⟩ := waits_bind_some hx h
  rw [hf a hFirst] at hWait
  cases hWait

theorem waits_refuseIf (p : Prop) [Decidable p] (e : Failure) : waits (refuseIf p e) = none := by
  unfold refuseIf
  split <;> rfl

theorem waits_ofResult (x : Except Failure α) : waits (ofResult x) = none := by
  rcases x with e | a <;> rfl

variable (ctx : Context)

theorem waits_definition (regNum : Nat) : waits (definition ctx regNum) = none := by
  unfold definition
  split <;> rfl

theorem waits_readBytes (reg : Register) (value : Value) (offs size : Nat) :
    waits (readBytes reg value offs size) = none := by
  unfold readBytes
  split
  · exact waits_ofResult _
  · rfl

theorem waits_getRegister (frame : Int) (regNum : Nat) :
    waits (getRegister ctx frame regNum) = none := by
  refine waits_bind (waits_refuseIf _ _) fun _ _ =>
    waits_bind (waits_definition _ _) fun reg _ => ?_
  split
  · exact waits_readBytes _ _ _ _
  · exact waits_bind (waits_ofResult _) fun info _ => waits_readBytes _ _ _ _

theorem waits_setRegister (regNum : Nat) (data : List UInt8) :
    waits (setRegister ctx regNum data) = none := by
  refine waits_bind (waits_refuseIf _ _) fun _ _ => waits_bind (waits_definition _ _) fun reg _ =>
    waits_bind (waits_refuseIf _ _) fun _ _ => ?_
  split
  · rfl
  · split <;> rfl

theorem waits_checkRegister (setm : BitVec 32) (l : Location) (ctx : Context) (frame : Int)
    (regNum : Nat) :
    waits (checkRegister setm l ctx frame regNum) = none := by
  refine waits_bind (waits_refuseIf _ _) fun _ _ => waits_bind (waits_definition _ _) fun reg _ =>
    waits_bind (waits_refuseIf _ _) fun _ _ => ?_
  split
  · rfl
  · exact waits_bind (waits_refuseIf _ _) fun _ _ => waits_bind (waits_ofResult _) fun _ _ => rfl

end

/-! ## One register -/

section

variable {α : Type} {asks : Context → Prop} [DecidablePred asks] {pre : Int → Check Unit}
  {body : Context → Int → Nat → Check α} {ctx : Context} {frame : Int} {regNum : Nat}

/-- What the attempts have in common: the context is found, and where it is asked for, its group has
to be stopped. -/
def access (asks : Context → Prop) [DecidablePred asks] (pre : Int → Check Unit)
    (body : Context → Int → Nat → Check α) (id : Text) (w : World) : Check α :=
  match id2register w id with
  | .error e => refuse e
  | .ok (ctx, frame, regNum) => do
    pre frame
    checkAllStoppedIf (asks ctx) w ctx
    body ctx frame regNum

theorem access_of_error {e : Failure} (h : id2register w id = .error e) :
    access asks pre body id w = refuse e := by
  rw [access, h]

theorem access_of_ok (h : id2register w id = .ok (ctx, frame, regNum)) :
    access asks pre body id w =
      (pre frame >>= fun _ => checkAllStoppedIf (asks ctx) w ctx >>= fun _ =>
      body ctx frame regNum) := by
  rw [access, h]

theorem refuseIf_exited (h : id2register w id = .ok (ctx, frame, regNum)) :
    refuseIf ctx.exited .alreadyExited = .ok () := by
  rw [refuseIf, if_neg (by simp [(id2register_ok h).2])]

theorem commandGet_eq (id : Text) (w : World) : commandGetCacheClient id w =
    access (fun c => c.regAccess &&& REG_ACCESS_RD_STOP ≠ 0) (fun _ => .ok ())
      getRegister id w := by
  rcases h : id2register w id with e | ⟨ctx, frame, regNum⟩
  · rw [access_of_error h, commandGetCacheClient, h]
    rfl
  · rw [access_of_ok h, commandGetCacheClient, h]
    have hExited := refuseIf_exited h
    simp only [ofResult, check_ok_bind, hExited]

theorem commandSet_eq (id : Text) (data : List UInt8) (w : World) :
    commandSetCacheClient id data w =
    access (fun c => c.regAccess &&& REG_ACCESS_WR_STOP ≠ 0)
      (fun frame => refuseIf (frame ≥ 0 ∧ ¬ isTopFrame frame) .invContext)
      (fun ctx _ regNum => setRegister ctx regNum data) id w := by
  rcases h : id2register w id with e | ⟨ctx, frame, regNum⟩
  · rw [access_of_error h, commandSetCacheClient, h]
    rfl
  · rw [access_of_ok h, commandSetCacheClient, h]
    have hExited := refuseIf_exited h
    simp only [ofResult, check_ok_bind, hExited]

theorem checkLocation_eq (setm : BitVec 32) (l : Location) (w : World) : checkLocation w setm l =
    access (fun c => stopFlag c setm ≠ 0) (fun _ => .ok ()) (checkRegister setm l) l.id w := by
  rcases h : id2register w l.id with e | ⟨ctx, frame, regNum⟩
  · rw [access_of_error h, checkLocation, h]
    rfl
  · rw [access_of_ok h, checkLocation, h]
    have hExited := refuseIf_exited h
    simp only [ofResult, check_ok_bind, hExited]

/-- An attempt waits for the group of its context, when the first check has passed. -/
theorem access_wait (hPre : ∀ frame, waits (pre frame) = none)
    (hBody : ∀ ctx frame regNum, waits (body ctx frame regNum) = none)
    (h : waits (access asks pre body id w) = some grp) :
    ∃ ctx frame regNum, id2register w id = .ok (ctx, frame, regNum) ∧ asks ctx ∧
      ctx.stopGroup = grp ∧
      ¬ isAllStopped w grp := by
  rcases hFound : id2register w id with e | ⟨ctx, frame, regNum⟩
  · rw [access_of_error hFound] at h
    cases h
  · rw [access_of_ok hFound] at h
    obtain ⟨⟨⟩, -, h⟩ := waits_bind_some (hPre frame) h
    by_cases hStop : asks ctx ∧ ¬ isAllStopped w ctx.stopGroup
    · rw [checkAllStoppedIf, if_pos hStop] at h
      cases h
      exact ⟨ctx, frame, regNum, rfl, hStop.1, rfl, hStop.2⟩
    · rw [checkAllStoppedIf, if_neg hStop, check_ok_bind, hBody] at h
      cases h

/-- Where all groups are stopped, an attempt that stops its context comes to the same end. -/
theorem access_halt
    (hAsks : ∀ ctx frame regNum, id2register w id = .ok (ctx, frame, regNum) → asks ctx)
    (h : waits (access asks pre body id w) = none) :
    access asks pre body id (halt w) = access asks pre body id w := by
  rcases hFound : id2register w id with e | ⟨ctx, frame, regNum⟩
  · have hHalt : id2register (halt w) id = .error e := by rw [id2register_halt, hFound]; rfl
    rw [access_of_error hFound, access_of_error hHalt]
  · have hHalt : id2register (halt w) id = .ok (ctx.halt, frame, regNum) := by
      rw [id2register_halt, hFound]; rfl
    have hStop := hAsks ctx frame regNum hFound
    rw [access_of_ok hFound] at h ⊢
    rw [access_of_ok hHalt]
    rcases hFirst : pre frame with e | ⟨⟩
    · rfl
    · rw [hFirst] at h
      have hAll : isAllStopped w ctx.stopGroup := by
        by_contra hRunning
        rw [check_ok_bind, checkAllStoppedIf, if_pos ⟨hStop, hRunning⟩] at h
        cases h
      have hHere : checkAllStoppedIf (asks ctx) w ctx = .ok () := by
        rw [checkAllStoppedIf, if_neg (fun hNot => hNot.2 hAll)]
      have hThere : checkAllStoppedIf (asks ctx.halt) (halt w) ctx.halt = .ok () := by
        rw [checkAllStoppedIf, if_neg (fun hNot => hNot.2 (isAllStopped_halt w _))]
      rw [check_ok_bind, check_ok_bind, hHere, hThere, check_ok_bind, check_ok_bind,
        halt_of_allStopped hFound hAll]

theorem access_of_halt (h : id2register w id = .ok (ctx, frame, regNum)) :
    access asks pre body id (halt w) = (pre frame >>= fun _ => body ctx.halt frame regNum) := by
  have hHalt : id2register (halt w) id = .ok (ctx.halt, frame, regNum) := by
    rw [id2register_halt, h]; rfl
  have hStop : checkAllStoppedIf (asks ctx.halt) (halt w) ctx.halt = .ok () := by
    rw [checkAllStoppedIf, if_neg (fun hNot => hNot.2 (isAllStopped_halt w _))]
  rw [access_of_ok hHalt, hStop]
  rfl

/-- A command for one register ends with the context as its flag wants it. -/
theorem access_eq (flag : BitVec 32) (hPre : ∀ frame, waits (pre frame) = none)
    (hBody : ∀ ctx frame regNum, waits (body ctx frame regNum) = none)
    (h : id2register w id = .ok (ctx, frame, regNum)) :
    retry (access (fun c => c.regAccess &&& flag ≠ 0) pre body id) waits stop w.length w =
      (pre frame >>= fun _ => body (ctx.stoppedFor flag) frame regNum) := by
  by_cases hFlag : ctx.regAccess &&& flag ≠ 0
  · have hHalt : access (fun c => c.regAccess &&& flag ≠ 0) pre body id (halt w) =
        (pre frame >>= fun _ => body ctx.halt frame regNum) := access_of_halt h
    rw [Context.stoppedFor, if_pos hFlag, ← hHalt]
    let inv : World → Prop := fun w =>
      ∃ ctx', id2register w id = .ok (ctx', frame, regNum) ∧ ctx'.regAccess = ctx.regAccess
    refine retry_eq inv halt toDo ?_ ?_ ⟨ctx, h, rfl⟩ (toDo_le w)
    · rintro w grp ⟨ctx', hFound, hAccess⟩ hWait
      obtain ⟨-, -, -, -, -, -, hRunning⟩ := access_wait hPre hBody hWait
      refine ⟨⟨if ctx'.stopGroup = grp then ctx'.halt else ctx', ?_, ?_⟩, halt_stop w grp,
        toDo_stop hRunning⟩
      · rw [id2register_stop, hFound]
        rfl
      · rw [← hAccess]
        split <;> rfl
    · rintro w ⟨ctx', hFound, hAccess⟩ hEnd
      refine access_halt (fun c f n hOther => ?_) hEnd
      rw [hFound] at hOther
      cases hOther
      rwa [hAccess]
  · have hNone : checkAllStoppedIf (ctx.regAccess &&& flag ≠ 0) w ctx = .ok () := by
      rw [checkAllStoppedIf, if_neg (fun hNot => hFlag hNot.1)]
    have hAttempt : access (fun c => c.regAccess &&& flag ≠ 0) pre body id w =
        (pre frame >>= fun _ => body ctx frame regNum) := by
      rw [access_of_ok h, hNone]
      rfl
    rw [Context.stoppedFor, if_neg hFlag, retry_of_none, hAttempt]
    rw [hAttempt]
    exact waits_bind (hPre frame) fun _ _ => hBody ctx frame regNum

end

section

variable {ctx : Context} {frame : Int} {regNum : Nat}

theorem get_eq (h : id2register w id = .ok (ctx, frame, regNum)) :
    get w id = getRegister (ctx.stoppedFor REG_ACCESS_RD_STOP) frame regNum := by
  rw [get, funext (commandGet_eq id)]
  exact access_eq REG_ACCESS_RD_STOP (fun _ => rfl) waits_getRegister h

theorem set_eq {data : List UInt8} (h : id2register w id = .ok (ctx, frame, regNum)) :
    set w id data =
    (refuseIf (frame ≥ 0 ∧ ¬ isTopFrame frame) .invContext >>= fun _ =>
      setRegister (ctx.stoppedFor REG_ACCESS_WR_STOP) regNum data) := by
  rw [set, funext (commandSet_eq id data)]
  exact access_eq REG_ACCESS_WR_STOP (fun _ => waits_refuseIf _ _)
    (fun ctx _ regNum => waits_setRegister ctx regNum data) h

end

/-! ## Lists of locations -/

section

variable {setm : BitVec 32} {l : Location} {locs : List Location}

/-- Whatever the flags of the context are. -/
theorem stopFlag_ne_zero (ctx : Context) (setm : BitVec 32) : stopFlag ctx setm ≠ 0 := by
  unfold stopFlag
  split <;> decide

theorem runningFlag_ne_zero (ctx : Context) (setm : BitVec 32) : runningFlag ctx setm ≠ 0 := by
  unfold runningFlag
  split <;> decide

theorem checkLocation_wait (h : waits (checkLocation w setm l) = some grp) :
    ¬ isAllStopped w grp := by
  rw [checkLocation_eq] at h
  obtain ⟨-, -, -, -, -, -, hRunning⟩ := access_wait (fun _ => rfl) (waits_checkRegister setm l) h
  exact hRunning

theorem checkLocation_halt (h : waits (checkLocation w setm l) = none) :
    checkLocation (halt w) setm l = checkLocation w setm l := by
  rw [checkLocation_eq] at h ⊢
  rw [checkLocation_eq, access_halt (fun ctx _ _ _ => stopFlag_ne_zero ctx setm) h]

theorem checkLocationList_wait (h : waits (checkLocationList w setm locs) = some grp) :
    ¬ isAllStopped w grp := by
  induction locs with
  | nil => cases h
  | cons l locs ih =>
    rcases waits_bind_cases h with hFirst | ⟨c, -, h⟩
    · exact checkLocation_wait hFirst
    · rcases waits_bind_cases h with hRest | ⟨cs, -, h⟩
      · exact ih hRest
      · cases h

theorem checkLocationList_halt (h : waits (checkLocationList w setm locs) = none) :
    checkLocationList (halt w) setm locs = checkLocationList w setm locs := by
  induction locs with
  | nil => rfl
  | cons l locs ih =>
    rw [checkLocationList] at h ⊢
    rw [checkLocationList]
    rcases hFirst : checkLocation w setm l with e | c
    · have hNone : waits (checkLocation w setm l) = none := by
        rw [hFirst] at h ⊢
        exact (waits_error e).trans h
      rw [checkLocation_halt hNone, hFirst]
      rfl
    · have hNone : waits (checkLocation w setm l) = none := by rw [hFirst]; rfl
      rw [checkLocation_halt hNone, hFirst]
      rw [hFirst] at h
      rcases hRest : checkLocationList w setm locs with e | cs
      · rw [hRest] at h ih
        rw [check_ok_bind, check_ok_bind, ih ((waits_error e).trans h)]
      · rw [hRest] at ih
        rw [check_ok_bind, check_ok_bind, ih rfl]

/-- An attempt at a list command: the checks, and what is done when they have passed. -/
def afterChecks {σ : Type} (setm : BitVec 32) (locs : List Location) (start : σ)
    (run : List Checked → Except (Stop Abort) Unit × σ) (w : World) :
    Except (Stop Abort) Unit × σ :=
  match checkLocationList w setm locs with
  | .error e => (.error e, start)
  | .ok ls => run ls

theorem afterChecks_eq {σ : Type} {start : σ} {run : List Checked → Except (Stop Abort) Unit × σ}
    (hRun : ∀ ls, waits (run ls).1 = none) :
    retry (afterChecks setm locs start run) (fun r => waits r.1) stop w.length w =
      afterChecks setm locs start run (halt w) := by
  have hWaits (w : World) :
    waits (afterChecks setm locs start run w).1 = waits (checkLocationList w setm locs) := by
    unfold afterChecks
    rcases checkLocationList w setm locs with e | ls
    · exact waits_error e
    · exact hRun ls
  refine retry_eq (fun _ => True) halt toDo (fun w grp _ h => ?_) (fun w _ h => ?_)
    trivial (toDo_le w)
  · rw [hWaits] at h
    exact ⟨trivial, halt_stop w grp, toDo_stop (checkLocationList_wait h)⟩
  · rw [hWaits] at h
    rw [afterChecks, afterChecks, checkLocationList_halt h]

theorem waits_readLocations (ls : List Checked) (b : Buffer) :
    waits (readLocations ls b).1 = none := by
  induction ls generalizing b with
  | nil => rfl
  | cons l ls ih =>
    have hFirst : waits (readLocation l b).1 = none := by
      have hRead := waits_readBytes l.reg l.value l.location.offs.toNat l.location.size.toNat
      unfold readLocation
      rcases hBytes :
        readBytes l.reg l.value l.location.offs.toNat l.location.size.toNat with e | bytes
      · rw [hBytes] at hRead
        dsimp only
        split
        · exact (waits_error e).trans hRead
        · rfl
      · dsimp only
        split <;> rfl
    rcases hRun : readLocation l b with ⟨e | ⟨⟩, b'⟩
    · rw [readLocations, Attempt.bind_of_error hRun]
      rwa [hRun] at hFirst
    · rw [readLocations, Attempt.bind_of_ok hRun]
      exact ih b'

theorem waits_writeLocations (data : List UInt8) (ls : List Checked) (s : Writes) :
    waits (writeLocations data ls s).1 = none := by
  induction ls generalizing s with
  | nil => rfl
  | cons l ls ih =>
    have hFirst : waits (writeLocation data l s).1 = none := by
      unfold writeLocation
      split
      · rfl
      · split
        · split <;> rfl
        · rfl
    rcases hRun : writeLocation data l s with ⟨e | ⟨⟩, s'⟩
    · rw [writeLocations, Attempt.bind_of_error hRun]
      rwa [hRun] at hFirst
    · rw [writeLocations, Attempt.bind_of_ok hRun]
      exact ih s'

end

theorem getm_eq (w : World) (bbfLen : BitVec 32) (locs : List Location) :
    getm w bbfLen locs = commandGetmCacheClient bbfLen locs (halt w) :=
  afterChecks_eq fun ls => waits_readLocations ls ⟨[], bbfLen, []⟩

theorem setm_eq (w : World) (locs : List Location) (data : List UInt8) :
    setm w locs data = commandSetmCacheClient data locs (halt w) :=
  afterChecks_eq fun ls => waits_writeLocations data ls ⟨[], 0⟩

end TcfAgent.RegisterCommands
