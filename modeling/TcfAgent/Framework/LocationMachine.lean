import TcfAgent.Lib.Checked
import TcfAgent.Lib.Stacks
import TcfAgent.Framework.LocationCommands

/-!
# Location commands on arrays

`evaluate_location_expression` with the stack in an array that grows, and the arguments in an
array that `SFT_CMD_SET_ARG` replaces by a longer one. An access outside of an array, and the use of
an entry that was never written, is a fault.

Main results:

* `execute_does`  — a command does on the arrays what it does on lists;
* `evaluate_does` — and so does a whole expression, as long as `unsigned` does not wrap.
-/

namespace TcfAgent.Location

open TcfAgent.Lib

/-! ## The machine -/

/-- The local variables of `evaluate_location_expression`. An entry that was not written yet is
`none`. -/
structure Machine where
  stk : List (Option Word)
  stkPos : Nat
  stkMax : Nat
  args : List Word
  argsCnt : Nat
  piece : Option (Word × Nat) := none

abbrev Loc (α : Type) : Type := Checked Machine Failure α

/-- A value of type `unsigned`. -/
def unsigned (n : Nat) : Nat := n % 2 ^ 32

/-- `stk[i]` -/
def load (i : Nat) : Loc Word := do
  orFault ((← get).stk[i]?).join

/-- `stk[i] = v` -/
def store (i : Nat) (v : Word) : Loc Unit := do
  ensure (i < (← get).stk.length)
  modify fun m => { m with stk := m.stk.set i (some v) }

/-- `tmp_realloc`: what does not fit any more is lost, and what is new is not written yet. -/
def realloc (stk : List (Option Word)) (n : Nat) : List (Option Word) :=
  stk.take n ++ List.replicate (n - stk.length) none

/-- Room for one more entry. -/
def reserve : Loc Unit := do
  if (← get).stkPos ≥ (← get).stkMax then
    modify fun m => { m with
      stkMax := unsigned (m.stkMax + 4), stk := realloc m.stk (unsigned (m.stkMax + 4)) }

/-- The index `stk_pos - k`. -/
def index (k : Nat) : Loc Nat := do
  ensure (k ≤ (← get).stkPos)
  return (← get).stkPos - k

/-- `if (stk_pos < n) location_expression_error()` -/
def need (n : Nat) : Loc Unit := do
  if (← get).stkPos < n then raise locationExpressionError

/-- `stk[stk_pos++] = v` -/
def push (v : Word) : Loc Unit := do
  store (← get).stkPos v
  modify fun m => { m with stkPos := unsigned (m.stkPos + 1) }

/-- `stk_pos--` -/
def drop : Loc Unit := do
  let pos ← index 1
  modify fun m => { m with stkPos := pos }

/-- `stk[stk_pos - 2] = f(stk[stk_pos - 2], stk[stk_pos - 1])`, and then `stk_pos--` -/
def binaryAt (f : Word → Word → Except Failure Word) : Loc Unit := do
  need 2
  let a ← load (← index 2)
  let b ← load (← index 1)
  let v ← orRaise (f a b)
  store (← index 2) v
  drop

/-! ## The commands -/

variable {Reg : Type}

/-- `SFT_CMD_RD_MEM`; a value of more than eight bytes makes a piece, when it is all there is. -/
def Target.rdMem (t : Target Reg) (last : Bool) (size : Nat) (big : Bool) : Loc Unit := do
  need 1
  if size ≤ 8 then
    let addr ← load (← index 1)
    let n ← orRaise (t.readMem big addr size)
    store (← index 1) n
  else if (← get).piece = none ∧ last ∧ (← get).stkPos = 1 then
    let addr ← load (← index 1)
    modify fun m => { m with piece := some (addr, size) }
    drop
  else raise (exception Err.invDataSize)

/-- `SFT_CMD_NEG` -/
def negAt : Loc Unit := do
  need 1
  let a ← load (← index 1)
  store (← index 1) (~~~a)
  drop

/-- `if (arg_no >= args_cnt) location_expression_error()` -/
def needArg (argNo : Nat) : Loc Unit := do
  if argNo ≥ (← get).argsCnt then raise locationExpressionError

/-- `SFT_CMD_ARG` -/
def argAt (argNo : Nat) : Loc Unit := do
  needArg argNo
  push (← orFault (← get).args[argNo]?)

/-- The longer array of `SFT_CMD_SET_ARG`: `memcpy` reads and writes `args_cnt` entries. -/
def growArgs (cnt : Nat) : Loc Unit := do
  ensure ((← get).argsCnt ≤ (← get).args.length ∧ (← get).argsCnt ≤ cnt)
  modify fun m => { m with
    args := m.args.take m.argsCnt ++ List.replicate (cnt - m.argsCnt) 0, argsCnt := cnt }

/-- Room for the argument. -/
def reserveArg (argNo : Nat) : Loc Unit := do
  if argNo ≥ (← get).argsCnt then growArgs (unsigned (argNo + 1))

/-- `SFT_CMD_SET_ARG` -/
def setArgAt (argNo : Nat) : Loc Unit := do
  need 1
  reserveArg argNo
  let v ← load (← index 1)
  ensure (argNo < (← get).args.length)
  modify fun m => { m with args := m.args.set argNo v }
  drop

/-- One command; `last` tells that no other one follows. -/
def Target.execute (t : Target Reg) (last : Bool) : Command Reg → Loc Unit
  | .number num => push num
  | .rdReg reg => do push (← orRaise (orException (t.readRegValue reg)))
  | .rdRegPcxiTricore reg => do
    let pcxi ← orRaise (orException (t.readRegValue reg))
    push (savedArea pcxi)
  | .fp =>
    match t.frame with
    | none => raise (strException Err.invContext "Invalid stack frame")
    | some fp => push fp
  | .rdMem size big => t.rdMem last size big
  | .add => binaryAt fun a b => .ok (a + b)
  | .sub => binaryAt fun a b => .ok (a - b)
  | .mul => binaryAt fun a b => .ok (a * b)
  | .div => binaryAt fun a b =>
    if b = 0 then .error (strException Err.other "Division by zero in location expression")
    else .ok (a / b)
  | .and => binaryAt fun a b => .ok (a &&& b)
  | .or => binaryAt fun a b => .ok (a ||| b)
  | .xor => binaryAt fun a b => .ok (a ^^^ b)
  | .neg => negAt
  | .ge => binaryAt fun a b => .ok (flag (b ≤ a))
  | .gt => binaryAt fun a b => .ok (flag (b < a))
  | .le => binaryAt fun a b => .ok (flag (a ≤ b))
  | .lt => binaryAt fun a b => .ok (flag (a < b))
  | .shl => binaryAt fun a b => .ok (t.shl a b)
  | .shr => binaryAt fun a b => .ok (t.shr a b)
  | .arg argNo => argAt argNo
  | .setArg argNo => setArgAt argNo

/-- The loop over the commands. -/
def Target.loop (t : Target Reg) : List (Command Reg) → Loc Unit
  | [] => pure ()
  | cmd :: cmds => do
    reserve
    t.execute cmds.isEmpty cmd
    t.loop cmds

/-- Two values that are left are added: "this looks like a bug in GNU Ada". -/
def addLeft : Loc Unit := do
  if (← get).stkPos = 2 then
    let a ← load 0
    let b ← load 1
    store 0 (a + b)
    modify fun m => { m with stkPos := 1 }

def Machine.init (args : List Word) : Machine := ⟨[], 0, 0, args, args.length, none⟩

/-- `evaluate_location_expression` -/
def Target.evaluate (t : Target Reg) (cmds : List (Command Reg)) (args : List Word) :
    Except (Stop Failure) (Unit × Machine) :=
  (do t.loop cmds; addLeft : Loc Unit).run (Machine.init args)

/-! ## What the arrays show -/

/-- The arrays are as long as they are said to be, and hold the lists. -/
structure Machine.Shows (m : Machine) (s : State) : Prop where
  fits : m.stk.length = m.stkMax
  le : m.stkPos ≤ m.stkMax
  small : m.stkMax < 2 ^ 32
  values : fromTop m.stkPos m.stk = s.stk.map some
  args : m.args = s.args
  cnt : m.argsCnt = s.args.length
  piece : m.piece = s.piece

section

variable {m : Machine} {s : State} {v a b : Word} {rest : List Word} {k : Nat}

theorem Machine.Shows.pos (h : m.Shows s) : s.stk.length = m.stkPos := by
  rw [← List.length_map (f := some), ← h.values, length_fromTop]
  rw [h.fits]
  exact h.le

theorem Machine.Shows.value (h : m.Shows s) (hk : s.stk[k]? = some v) :
    m.stk[m.stkPos - (k + 1)]? = some (some v) := by
  have hLt : k < m.stkPos := by
    rw [← h.pos]
    exact (List.getElem?_eq_some_iff.1 hk).1
  rw [← getElem?_fromTop (by rw [h.fits]; exact h.le) hLt, h.values, List.getElem?_map, hk]
  rfl

theorem index_ok (h : k + 1 ≤ m.stkPos) : index (k + 1) m = .ok (m.stkPos - (k + 1), m) := by
  unfold index
  rw [bind_get, ensure_true h]
  rfl

theorem load_ok (h : m.stk[k]? = some (some v)) : load k m = .ok (v, m) := by
  unfold load
  rw [bind_get, h]
  rfl

theorem store_ok (h : k < m.stk.length) :
    store k v m = .ok ((), { m with stk := m.stk.set k (some v) }) := by
  unfold store
  rw [bind_get, ensure_true h]
  rfl

theorem need_ok {n : Nat} (h : n ≤ m.stkPos) : need n m = .ok ((), m) := by
  unfold need
  rw [bind_get, if_neg (by omega)]
  rfl

theorem need_error {n : Nat} (h : m.stkPos < n) :
    need n m = .error (.raise locationExpressionError) := by
  unfold need
  rw [bind_get, if_pos h]
  rfl

/-- `stk[stk_pos - (k + 1)]` -/
theorem Machine.Shows.load {α : Type} (h : m.Shows s) (hk : s.stk[k]? = some v)
    (q : Word → Loc α) : (index (k + 1) >>= fun i => Location.load i >>= q) m = q v m := by
  have hLt : k < s.stk.length := (List.getElem?_eq_some_iff.1 hk).1
  rw [h.pos] at hLt
  rw [bind_of_ok (index_ok hLt), bind_of_ok (load_ok (h.value hk))]

/-- `stk[stk_pos - (k + 1)] = v` -/
theorem Machine.Shows.store (h : m.Shows s) (hk : k < s.stk.length) (v : Word) :
    ∃ m', (∀ {α : Type} (q : Unit → Loc α),
        (index (k + 1) >>= fun i => Location.store i v >>= q) m = q () m') ∧
      m'.Shows { s with stk := s.stk.set k v } := by
  rw [h.pos] at hk
  have hLe : m.stkPos ≤ m.stk.length := by
    rw [h.fits]
    exact h.le
  have hIndex : m.stkPos - (k + 1) < m.stk.length := by omega
  refine ⟨{ m with stk := m.stk.set (m.stkPos - (k + 1)) (some v) }, fun q => ?_, ?_, h.le, h.small,
    ?_, h.args, h.cnt, h.piece⟩
  · rw [bind_of_ok (index_ok hk), bind_of_ok (store_ok hIndex)]
  · rw [List.length_set, h.fits]
  · show fromTop m.stkPos (m.stk.set (m.stkPos - (k + 1)) (some v)) = (s.stk.set k v).map some
    rw [fromTop_set hLe hk, h.values, List.map_set]

theorem Machine.Shows.drop (h : m.Shows s) (hStk : s.stk = v :: rest) :
    ∃ m', Location.drop m = .ok ((), m') ∧ m'.Shows { s with stk := rest } := by
  have hPos := h.pos
  rw [hStk, List.length_cons] at hPos
  have hLe : m.stkPos ≤ m.stk.length := by
    rw [h.fits]
    exact h.le
  unfold Location.drop
  rw [bind_of_ok (index_ok (by omega))]
  refine ⟨_, rfl, h.fits, ?_, h.small, ?_, h.args, h.cnt, h.piece⟩
  · exact (Nat.sub_le _ _).trans h.le
  · show fromTop (m.stkPos - (0 + 1)) m.stk = rest.map some
    rw [Nat.zero_add, fromTop_pred hLe, h.values, hStk]
    rfl

theorem Machine.Shows.push (h : m.Shows s) (hRoom : m.stkPos < m.stkMax) (v : Word) :
    ∃ m', Location.push v m = .ok ((), m') ∧ m'.Shows { s with stk := v :: s.stk } := by
  have hIndex : m.stkPos < m.stk.length := by
    rw [h.fits]
    exact hRoom
  have hNext : unsigned (m.stkPos + 1) = m.stkPos + 1 := by
    have hSmall := h.small
    exact Nat.mod_eq_of_lt (by omega)
  unfold Location.push
  rw [bind_get, bind_of_ok (store_ok hIndex)]
  refine ⟨_, rfl, ?_, ?_, h.small, ?_, h.args, h.cnt, h.piece⟩
  · show (m.stk.set m.stkPos (some v)).length = m.stkMax
    rw [List.length_set, h.fits]
  · show unsigned (m.stkPos + 1) ≤ m.stkMax
    rw [hNext]
    exact hRoom
  · show fromTop (unsigned (m.stkPos + 1)) (m.stk.set m.stkPos (some v)) = (v :: s.stk).map some
    rw [hNext, fromTop_set_succ hIndex, h.values, List.map_cons]

end

/-! ## Commands on arrays and on lists -/

/-- The program on the arrays comes to what is said about the lists, and to nothing worse. -/
def Does (p : Loc Unit) (r : Except Failure State) (m : Machine) : Prop :=
  Safely p (fun _ m' => ∃ s', r = .ok s' ∧ m'.Shows s') (fun f => r = .error f) m

section

variable {m m' : Machine} {s s' : State} {v a b : Word} {rest : List Word} {p : Loc Unit}
  {r : Except Failure State}

theorem does_ok (h : p m = .ok ((), m')) (hShows : m'.Shows s') (hr : r = .ok s') :
    Does p r m := (safely_of_ok h).2 ⟨s', hr, hShows⟩

theorem does_error {f : Failure} (h : p m = .error (.raise f)) (hr : r = .error f) :
    Does p r m := by
  unfold Does Safely
  rw [h]
  exact hr

/-- One program after the other. -/
theorem Does.bind {q : Loc Unit} {k : State → Except Failure State} (hp : Does p r m)
    (hq : ∀ m' s', r = .ok s' → m'.Shows s' → Does q (k s') m') :
    Does (p >>= fun _ => q) (r >>= k) m := by
  unfold Does Safely at hp
  rcases hRun : p m with (f | _) | ⟨u, m'⟩
  · rw [hRun] at hp
    rw [show r = .error f from hp]
    exact does_error (bind_of_error hRun) rfl
  · rw [hRun] at hp
    exact hp.elim
  · rw [hRun] at hp
    obtain ⟨s', hr, hShows⟩ := hp
    rw [hr]
    unfold Does
    rw [safely_bind_of_ok hRun]
    exact hq m' s' hr hShows

theorem does_need {n : Nat} (h : m.stkPos < n) (hr : r = .error locationExpressionError)
    (q : Unit → Loc Unit) : Does (need n >>= q) r m := by
  have hRun := bind_of_error (q := q) (need_error h)
  exact does_error hRun hr

theorem binaryAt_does {f : Word → Word → Except Failure Word} (h : m.Shows s) :
    Does (binaryAt f) (binary f s) m := by
  have hPos := h.pos
  unfold binaryAt
  rcases hStk : s.stk with - | ⟨b, - | ⟨a, rest⟩⟩
  · rw [hStk] at hPos
    exact does_need (by simp [← hPos]) (by rw [binary, hStk]) _
  · rw [hStk] at hPos
    exact does_need (by simp [← hPos]) (by rw [binary, hStk]) _
  · rw [hStk, List.length_cons, List.length_cons] at hPos
    have hSpec : binary f s = (f a b).map fun v => { s with stk := v :: rest } := by
      rw [binary, hStk]
    have hA : s.stk[1]? = some a := by rw [hStk]; rfl
    have hB : s.stk[0]? = some b := by rw [hStk]; rfl
    unfold Does
    rw [safely_bind_of_ok (need_ok (by omega))]
    unfold Safely
    rw [h.load hA, h.load hB]
    rcases hf : f a b with e | v
    · rw [hSpec, hf]
      rfl
    · obtain ⟨m', hStore, hShows⟩ := h.store (k := 1) (by rw [hStk]; simp) v
      have hStk' : ({ s with stk := s.stk.set 1 v } : State).stk = b :: v :: rest := by
        rw [hStk]
        rfl
      obtain ⟨m'', hDrop, hShows'⟩ := hShows.drop hStk'
      have hRun : (orRaise (Except.ok (ε := Failure) v) >>= fun v =>
          index 2 >>= fun i => store i v >>= fun _ => drop) m = .ok ((), m'') := by
        rw [bind_of_ok (a := v) (t := m) rfl, hStore, hDrop]
      rw [hRun, hSpec, hf]
      exact ⟨_, rfl, hShows'⟩

theorem push_does (h : m.Shows s) (hRoom : m.stkPos < m.stkMax) (v : Word) :
    Does (push v) (.ok { s with stk := v :: s.stk }) m := by
  obtain ⟨m', hPush, hShows⟩ := h.push hRoom v
  exact does_ok hPush hShows rfl

/-- A value that has to be read first. -/
theorem pushRead_does (h : m.Shows s) (hRoom : m.stkPos < m.stkMax) (r : Except Failure Word)
    (f : Word → Word) : Does (orRaise r >>= fun v => push (f v))
      (r.map fun v => { s with stk := f v :: s.stk }) m := by
  rcases r with e | v
  · exact does_error rfl rfl
  · exact push_does h hRoom (f v)

theorem negAt_does (h : m.Shows s) (t : Target Reg) (last : Bool) :
    Does negAt (t.command last .neg s) m := by
  have hPos := h.pos
  unfold negAt
  rcases hStk : s.stk with - | ⟨a, rest⟩
  · rw [hStk] at hPos
    exact does_need (by simp [← hPos]) (by simp only [Target.command, hStk]) _
  · rw [hStk, List.length_cons] at hPos
    have hA : s.stk[0]? = some a := by rw [hStk]; rfl
    obtain ⟨m', hStore, hShows⟩ := h.store (k := 0) (by rw [hStk]; simp) (~~~a)
    have hStk' : ({ s with stk := s.stk.set 0 (~~~a) } : State).stk = ~~~a :: rest := by
      rw [hStk]
      rfl
    obtain ⟨m'', hDrop, hShows'⟩ := hShows.drop hStk'
    refine does_ok ?_ hShows' (by simp only [Target.command, hStk])
    rw [bind_of_ok (need_ok (by omega)), h.load hA, hStore, hDrop]

theorem rdMem_does (h : m.Shows s) (t : Target Reg) (last : Bool) (size : Nat) (big : Bool) :
    Does (t.rdMem last size big) (t.command last (.rdMem size big) s) m := by
  have hPos := h.pos
  unfold Target.rdMem
  rcases hStk : s.stk with - | ⟨addr, rest⟩
  · rw [hStk] at hPos
    exact does_need (by simp [← hPos]) (by simp only [Target.command, hStk]) _
  · rw [hStk, List.length_cons] at hPos
    have hA : s.stk[0]? = some addr := by rw [hStk]; rfl
    unfold Does
    rw [safely_bind_of_ok (need_ok (by omega))]
    simp only [Target.command, hStk]
    by_cases hSize : size ≤ 8
    · simp only [if_pos hSize]
      unfold Safely
      rw [h.load hA]
      rcases hRead : t.readMem big addr size with e | n
      · rfl
      · obtain ⟨m', hStore, hShows⟩ := h.store (k := 0) (by rw [hStk]; simp) n
        have hRun : (index 1 >>= fun i => store i n) m = .ok ((), m') := by
          have hPure := hStore pure
          simp only [bind_pure] at hPure
          exact hPure
        have hBind : (orRaise (Except.ok (ε := Failure) n) >>= fun n =>
            index 1 >>= fun i => store i n) m = .ok ((), m') := by
          rw [bind_of_ok (a := n) (t := m) rfl, hRun]
        rw [hBind]
        exact ⟨_, rfl, by simpa only [hStk, List.set_cons_zero] using hShows⟩
    · simp only [if_neg hSize]
      rw [safely_bind, safely_get]
      have hCond : (m.piece = none ∧ last = true ∧ m.stkPos = 1) ↔
          (s.piece = none ∧ last = true ∧ rest = []) := by
        rw [h.piece, ← hPos, Nat.add_eq_right, List.length_eq_zero_iff]
      simp only [safely_bind, safely_get]
      split
      · next hAll =>
        obtain ⟨hPiece, hLast, hRest⟩ := hCond.1 hAll
        rw [if_pos ⟨hPiece, hLast, hRest⟩]
        have hShows : ({ m with piece := some (addr, size) } : Machine).Shows
            { s with piece := some (addr, size) } :=
          ⟨h.fits, h.le, h.small, h.values, h.args, h.cnt, rfl⟩
        have hTop : ({ s with piece := some (addr, size) } : State).stk = addr :: rest := hStk
        obtain ⟨m', hDrop, hShows'⟩ := hShows.drop hTop
        rw [hRest] at hShows'
        unfold Safely
        rw [h.load hA, bind_of_ok (a := ()) (t := { m with piece := some (addr, size) }) rfl, hDrop]
        exact ⟨_, rfl, hShows'⟩
      · next hNot =>
        rw [if_neg (mt hCond.2 hNot)]
        rfl

variable {argNo : Nat}

theorem needArg_ok (h : argNo < m.argsCnt) : needArg argNo m = .ok ((), m) := by
  unfold needArg
  rw [bind_get, if_neg (by omega)]
  rfl

theorem argAt_does (h : m.Shows s) (hRoom : m.stkPos < m.stkMax) (t : Target Reg) (last : Bool)
    (argNo : Nat) : Does (argAt argNo) (t.command last (.arg argNo) s) m := by
  unfold argAt
  rcases hArg : s.args[argNo]? with - | v
  · have hGe : m.argsCnt ≤ argNo := by
      rw [h.cnt]
      exact List.getElem?_eq_none_iff.1 hArg
    have hRun : needArg argNo m = .error (.raise locationExpressionError) := by
      unfold needArg
      rw [bind_get, if_pos hGe]
      rfl
    exact does_error (bind_of_error hRun) (by simp only [Target.command, hArg])
  · have hLt : argNo < m.argsCnt := by
      rw [h.cnt]
      exact (List.getElem?_eq_some_iff.1 hArg).1
    obtain ⟨m', hPush, hShows⟩ := h.push hRoom v
    refine does_ok ?_ hShows (by simp only [Target.command, hArg])
    rw [bind_of_ok (needArg_ok hLt), bind_get, h.args, hArg]
    exact hPush

/-- There is room for the argument, and what is new is 0. -/
theorem reserveArg_ok (h : m.Shows s) (hArg : argNo + 1 < 2 ^ 32) :
    ∃ m', reserveArg argNo m = .ok ((), m') ∧ m'.Shows { s with
      args := s.args ++ List.replicate (argNo + 1 - s.args.length) 0 } := by
  unfold reserveArg
  rw [bind_get]
  split
  · next hGe =>
    have hCnt : unsigned (argNo + 1) = argNo + 1 := Nat.mod_eq_of_lt hArg
    have hLe : m.argsCnt ≤ m.args.length ∧ m.argsCnt ≤ argNo + 1 := by
      rw [h.args, h.cnt] at *
      omega
    rw [hCnt]
    unfold growArgs
    rw [bind_get, bind_get, bind_get, ensure_true hLe]
    refine ⟨_, rfl, h.fits, h.le, h.small, h.values, ?_, ?_, h.piece⟩
    · show m.args.take m.argsCnt ++ List.replicate (argNo + 1 - m.argsCnt) 0 = _
      rw [h.args, h.cnt, List.take_length]
    · show argNo + 1 = (s.args ++ List.replicate (argNo + 1 - s.args.length) 0).length
      rw [List.length_append, List.length_replicate]
      rw [h.cnt] at hGe
      omega
  · next hLt =>
    rw [h.cnt] at hLt
    have hNone : argNo + 1 - s.args.length = 0 := by omega
    refine ⟨m, rfl, ?_⟩
    simpa only [hNone, List.replicate_zero, List.append_nil] using h

theorem setArgAt_does (h : m.Shows s) (t : Target Reg) (last : Bool)
    (hArg : argNo + 1 < 2 ^ 32) :
    Does (setArgAt argNo) (t.command last (.setArg argNo) s) m := by
  have hPos := h.pos
  unfold setArgAt
  rcases hStk : s.stk with - | ⟨a, rest⟩
  · rw [hStk] at hPos
    exact does_need (by simp [← hPos]) (by simp only [Target.command, hStk]) _
  · rw [hStk, List.length_cons] at hPos
    obtain ⟨m', hReserve, hShows⟩ := reserveArg_ok h hArg
    have hA : s.stk[0]? = some a := by rw [hStk]; rfl
    have hLength : argNo < m'.args.length := by
      rw [hShows.args, List.length_append, List.length_replicate]
      omega
    have hShows' : ({ m' with args := m'.args.set argNo a } : Machine).Shows
        { s with args := setArg s.args argNo a } := by
      refine ⟨hShows.fits, hShows.le, hShows.small, hShows.values, ?_, ?_, hShows.piece⟩
      · rw [hShows.args]
        rfl
      · rw [hShows.cnt, setArg, List.length_set]
    obtain ⟨m'', hDrop, hShows''⟩ := hShows'.drop hStk
    refine does_ok ?_ hShows'' (by simp only [Target.command, hStk])
    rw [bind_of_ok (need_ok (by omega)), bind_of_ok hReserve, hShows.load hA, bind_get,
      ensure_true hLength]
    exact hDrop

/-! ## Whole expressions -/

/-- The array of the arguments can be as long as the command wants it. -/
def Command.Fits : Command Reg → Prop
  | .setArg argNo => argNo + 1 < 2 ^ 32
  | _ => True

/-- A command does on the arrays what it does on lists. -/
theorem execute_does (h : m.Shows s) (hRoom : m.stkPos < m.stkMax) (t : Target Reg) (last : Bool)
    (cmd : Command Reg) (hFits : cmd.Fits) : Does (t.execute last cmd)
    (t.command last cmd s) m := by
  cases cmd with
  | number num => exact push_does h hRoom num
  | rdReg reg => exact pushRead_does h hRoom _ id
  | rdRegPcxiTricore reg => exact pushRead_does h hRoom _ savedArea
  | fp =>
    simp only [Target.execute, Target.command]
    rcases t.frame with - | fp
    · exact does_error rfl rfl
    · exact push_does h hRoom fp
  | rdMem size big => exact rdMem_does h t last size big
  | neg => exact negAt_does h t last
  | arg argNo => exact argAt_does h hRoom t last argNo
  | setArg argNo => exact setArgAt_does h t last hFits
  | _ => exact binaryAt_does h

/-- There is room for one more entry, unless `stk_max` would wrap. -/
theorem reserve_ok (h : m.Shows s) (hSmall : s.stk.length + 4 < 2 ^ 32) :
    ∃ m', reserve m = .ok ((), m') ∧ m'.Shows s ∧ m'.stkPos < m'.stkMax := by
  have hLe := h.le
  have hFits := h.fits
  rw [h.pos] at hSmall
  unfold reserve
  rw [bind_get, bind_get]
  split
  · next hFull =>
    have hMax : unsigned (m.stkMax + 4) = m.stkMax + 4 := Nat.mod_eq_of_lt (by omega)
    refine ⟨{ m with
      stkMax := unsigned (m.stkMax + 4), stk := realloc m.stk (unsigned (m.stkMax + 4)) }, rfl,
      ⟨?_, ?_, ?_, ?_, h.args, h.cnt, h.piece⟩, ?_⟩
    · simp only [hMax, realloc, List.length_append, List.length_take, List.length_replicate]
      omega
    · show m.stkPos ≤ unsigned (m.stkMax + 4)
      omega
    · show unsigned (m.stkMax + 4) < 2 ^ 32
      omega
    · show fromTop m.stkPos (realloc m.stk (unsigned (m.stkMax + 4))) = s.stk.map some
      rw [hMax, realloc, List.take_of_length_le (by omega), fromTop_append (by omega), h.values]
    · show m.stkPos < unsigned (m.stkMax + 4)
      omega
  · next hRoom => exact ⟨m, rfl, h, by omega⟩

/-- As long as the commands run, the lengths of the arrays fit into `unsigned`. -/
def Target.Fits (t : Target Reg) : List (Command Reg) → State → Prop
  | [], _ => True
  | cmd :: cmds, s => s.stk.length + 4 < 2 ^ 32 ∧ cmd.Fits ∧
    ∀ s', t.command cmds.isEmpty cmd s = .ok s' → t.Fits cmds s'

theorem loop_does (t : Target Reg) (cmds : List (Command Reg)) (h : m.Shows s)
    (hFits : t.Fits cmds s) : Does (t.loop cmds) (t.runCommands cmds s) m := by
  induction cmds generalizing m s with
  | nil => exact does_ok rfl h rfl
  | cons cmd cmds ih =>
    obtain ⟨hSmall, hCmd, hRest⟩ := hFits
    obtain ⟨m', hReserve, hShows, hRoom⟩ := reserve_ok h hSmall
    have hExecute := execute_does hShows hRoom t cmds.isEmpty cmd hCmd
    unfold Does
    rw [Target.loop, safely_bind_of_ok hReserve]
    exact hExecute.bind fun m'' s' hCommand hShows' => ih hShows' (hRest s' hCommand)

/-- The sum of two values that are left. -/
theorem addLeft_ok (h : m.Shows s) : ∃ m', addLeft m = .ok ((), m') ∧ m'.Shows (addTwo s) := by
  have hPos := h.pos
  have hFits := h.fits
  have hLe := h.le
  unfold addLeft
  rw [bind_get]
  split
  · next hTwo =>
    obtain ⟨b, a, hStk⟩ : ∃ b a, s.stk = [b, a] := List.length_eq_two.1 (hPos.trans hTwo)
    have hA : m.stk[0]? = some (some a) := by
      have hValue := h.value (k := 1) (v := a) (by rw [hStk]; rfl)
      rwa [hTwo] at hValue
    have hB : m.stk[1]? = some (some b) := by
      have hValue := h.value (k := 0) (v := b) (by rw [hStk]; rfl)
      rwa [hTwo] at hValue
    rw [bind_of_ok (load_ok hA), bind_of_ok (load_ok hB), bind_of_ok (store_ok (by omega))]
    refine ⟨_, rfl, ?_, ?_, h.small, ?_, ?_, ?_, ?_⟩
    · show (m.stk.set 0 (some (a + b))).length = m.stkMax
      rw [List.length_set, hFits]
    · show 1 ≤ m.stkMax
      omega
    · show fromTop (0 + 1) (m.stk.set 0 (some (a + b))) = (addTwo s).stk.map some
      rw [fromTop_set_succ (by omega), addTwo, hStk]
      rfl
    · rw [addTwo, hStk]
      exact h.args
    · rw [addTwo, hStk]
      exact h.cnt
    · rw [addTwo, hStk]
      exact h.piece
  · next hNot =>
    have hAdd : addTwo s = s := by
      unfold addTwo
      split
      · next hStk =>
        rw [hStk] at hPos
        exact absurd hPos.symm hNot
      · rfl
    exact ⟨m, rfl, by rwa [hAdd]⟩

theorem shows_init (args : List Word) : (Machine.init args).Shows { stk := [], args := args } :=
  ⟨rfl, Nat.le_refl 0, Nat.two_pow_pos 32, rfl, rfl, rfl, rfl⟩

/-- A whole expression does on the arrays what it does on lists, and no access is out of
bounds. -/
theorem evaluate_does (t : Target Reg) (cmds : List (Command Reg)) (args : List Word)
    (hFits : t.Fits cmds { stk := [], args := args }) :
    Does (t.loop cmds >>= fun _ => addLeft) (t.evaluateLocationExpression cmds args)
      (Machine.init args) := by
  have hLoop := loop_does t cmds (shows_init args) hFits
  have hSpec : t.evaluateLocationExpression cmds args =
      t.runCommands cmds { stk := [], args := args } >>= fun s => .ok (addTwo s) := by
    rw [Target.evaluateLocationExpression]
    cases t.runCommands cmds { stk := [], args := args } <;> rfl
  rw [hSpec]
  refine hLoop.bind fun m' s' _ hShows => ?_
  obtain ⟨m'', hAdd, hShows'⟩ := addLeft_ok hShows
  exact does_ok hAdd hShows' rfl

end

end TcfAgent.Location
