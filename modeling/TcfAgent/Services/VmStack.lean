import TcfAgent.Lib.Run
import TcfAgent.Lib.Stacks
import TcfAgent.Services.VmEvaluator

/-!
# Values and their types

The two arrays of the virtual machine, read from the top of the stack, and what the operations that
move entries make of them. A trace remembers with every entry which push it comes from.

Main results:

* `gives_rot`       — `OP_rot` exchanges the types of the first and the third entry;
* `tags_move_along` — when the type next to a value is the one it was pushed with.
-/

namespace TcfAgent.VmEval

open TcfAgent.Lib TcfAgent.Location TcfAgent.Dwarf
open TcfAgent.Vm (TypeClass)

variable {Frame : Type}

/-! ## The arrays from the top -/

/-- The arrays are as long as they are said to be. -/
structure Eval.Fits (e : Eval Frame) : Prop where
  stk     : e.stk.length = e.stkMax
  typeStk : e.typeStk.length = e.stkMax
  le      : e.stkPos ≤ e.stkMax

/-- What stands in the arrays, the topmost entry first. -/
structure Shows (vs : List Word) (ts : List TypeClass) (s : State Frame) : Prop where
  fits   : s.eval.Fits
  values : fromTop s.eval.stkPos s.eval.stk = vs
  types  : fromTop s.eval.stkPos s.eval.typeStk = ts

/-- All but the arrays. -/
def State.rest (s : State Frame) : State Frame :=
  { s with eval := { s.eval with stk := [], typeStk := [], stkPos := 0, stkMax := 0 } }

section

variable {vs : List Word} {ts : List TypeClass} {s : State Frame}

theorem Shows.le_stk (h : Shows vs ts s) : s.eval.stkPos ≤ s.eval.stk.length := by
  rw [h.fits.stk]
  exact h.fits.le

theorem Shows.le_typeStk (h : Shows vs ts s) : s.eval.stkPos ≤ s.eval.typeStk.length := by
  rw [h.fits.typeStk]
  exact h.fits.le

theorem Shows.length_values (h : Shows vs ts s) : vs.length = s.eval.stkPos := by
  rw [← h.values, length_fromTop h.le_stk]

theorem Shows.length_types (h : Shows vs ts s) : ts.length = s.eval.stkPos := by
  rw [← h.types, length_fromTop h.le_typeStk]

variable {k : Nat}

theorem slot_eq (hk : k < s.eval.stkPos) :
    slot (k + 1) s = .ok (s.eval.stkPos - (k + 1), s) := by
  have hBoth : 1 ≤ k + 1 ∧ k + 1 ≤ s.eval.stkPos := ⟨Nat.succ_pos _, hk⟩
  unfold slot
  rw [bind_get, ensure_true hBoth]
  rfl

theorem gives_stkAt (h : Shows vs ts s) {v : Word} (hv : vs[k]? = some v) :
    Gives (stkAt (k + 1)) (fun a s' => a = v ∧ s' = s) s := by
  have hk : k < s.eval.stkPos := by
    rw [← h.length_values]
    exact (List.getElem?_eq_some_iff.1 hv).1
  have hEntry : s.eval.stk[s.eval.stkPos - (k + 1)]? = some v := by
    rw [← getElem?_fromTop h.le_stk hk, h.values, hv]
  refine ⟨v, s, ?_, rfl, rfl⟩
  unfold stkAt
  rw [bind_of_ok (slot_eq hk), bind_get, hEntry]
  rfl

theorem gives_typeAt (h : Shows vs ts s) {t : TypeClass} (ht : ts[k]? = some t) :
    Gives (typeAt (k + 1)) (fun a s' => a = t ∧ s' = s) s := by
  have hk : k < s.eval.stkPos := by
    rw [← h.length_types]
    exact (List.getElem?_eq_some_iff.1 ht).1
  have hEntry : s.eval.typeStk[s.eval.stkPos - (k + 1)]? = some t := by
    rw [← getElem?_fromTop h.le_typeStk hk, h.types, ht]
  refine ⟨t, s, ?_, rfl, rfl⟩
  unfold typeAt
  rw [bind_of_ok (slot_eq hk), bind_get, hEntry]
  rfl

theorem gives_setStkAt (h : Shows vs ts s) (hk : k < vs.length) (v : Word) :
    Gives (setStkAt (k + 1) v) (fun _ s' => Shows (vs.set k v) ts s' ∧ s'.rest = s.rest) s := by
  rw [h.length_values] at hk
  have hLe := h.le_stk
  have hIndex : s.eval.stkPos - (k + 1) < s.eval.stk.length := by omega
  have hRun : setStkAt (k + 1) v s = .ok ((), { s with
      eval := { s.eval with stk := s.eval.stk.set (s.eval.stkPos - (k + 1)) v } }) := by
    unfold setStkAt
    rw [bind_of_ok (slot_eq hk), bind_get, ensure_true hIndex]
    rfl
  refine ⟨(), _, hRun, ⟨⟨?_, h.fits.typeStk, h.fits.le⟩, ?_, h.types⟩, rfl⟩
  · exact (List.length_set).trans h.fits.stk
  · rw [← h.values]
    exact fromTop_set hLe hk v

theorem gives_setTypeAt (h : Shows vs ts s) (hk : k < ts.length) (t : TypeClass) :
    Gives (setTypeAt (k + 1) t) (fun _ s' => Shows vs (ts.set k t) s' ∧ s'.rest = s.rest) s := by
  rw [h.length_types] at hk
  have hLe := h.le_typeStk
  have hIndex : s.eval.stkPos - (k + 1) < s.eval.typeStk.length := by omega
  have hRun : setTypeAt (k + 1) t s = .ok ((), { s with
      eval := { s.eval with typeStk := s.eval.typeStk.set (s.eval.stkPos - (k + 1)) t } }) := by
    unfold setTypeAt
    rw [bind_of_ok (slot_eq hk), bind_get, ensure_true hIndex]
    rfl
  refine ⟨(), _, hRun, ⟨⟨h.fits.stk, ?_, h.fits.le⟩, h.values, ?_⟩, rfl⟩
  · exact (List.length_set).trans h.fits.typeStk
  · rw [← h.types]
    exact fromTop_set hLe hk t

theorem gives_push (h : Shows vs ts s) (hRoom : s.eval.stkPos < s.eval.stkMax) (v : Word)
    (t : TypeClass) :
    Gives (push v t) (fun _ s' => Shows (v :: vs) (t :: ts) s' ∧ s'.rest = s.rest) s := by
  have hStk : s.eval.stkPos < s.eval.stk.length := by rwa [h.fits.stk]
  have hTypes : s.eval.stkPos < s.eval.typeStk.length := by rwa [h.fits.typeStk]
  have hAll := And.intro hRoom (And.intro hStk hTypes)
  have hRun : push v t s = .ok ((), { s with
      eval := { s.eval with
        stk := s.eval.stk.set s.eval.stkPos v
        typeStk := s.eval.typeStk.set s.eval.stkPos t
        stkPos := s.eval.stkPos + 1 } }) := by
    unfold push
    rw [bind_get]
    rw [ensure_true hAll]
    rfl
  refine ⟨(), _, hRun, ⟨⟨?_, ?_, hRoom⟩, ?_, ?_⟩, rfl⟩
  · exact (List.length_set).trans h.fits.stk
  · exact (List.length_set).trans h.fits.typeStk
  · rw [← h.values]
    exact fromTop_set_succ hStk v
  · rw [← h.types]
    exact fromTop_set_succ hTypes t

theorem gives_dropTop (h : Shows vs ts s) (hSome : 0 < vs.length) :
    Gives dropTop (fun _ s' => Shows vs.tail ts.tail s' ∧ s'.rest = s.rest) s := by
  rw [h.length_values] at hSome
  have hRun : dropTop s = .ok ((), { s with
      eval := { s.eval with stkPos := s.eval.stkPos - 1 } }) := by
    unfold dropTop
    rw [bind_get, ensure_true (show 1 ≤ s.eval.stkPos from hSome)]
    rfl
  refine ⟨(), _, hRun, ⟨⟨h.fits.stk, h.fits.typeStk, ?_⟩, ?_, ?_⟩, rfl⟩
  · exact Nat.le_trans (Nat.sub_le _ _) h.fits.le
  · rw [← h.values]
    exact fromTop_pred h.le_stk
  · rw [← h.types]
    exact fromTop_pred h.le_typeStk

theorem gives_checkStack (h : Shows vs ts s) {n : Nat} (hn : n ≤ vs.length) :
    Gives (checkStack n) (fun _ s' => s' = s) s := by
  rw [h.length_values] at hn
  refine ⟨(), s, ?_, rfl⟩
  unfold checkStack
  rw [bind_get, if_neg (by omega)]
  rfl

end

/-! ## Operands -/

/-- Only `code_pos` is different. -/
def Advances (s s' : State Frame) : Prop :=
  ∃ pos, s' = { s with eval := { s.eval with codePos := pos } }

theorem advances_refl (s : State Frame) : Advances s s := ⟨s.eval.codePos, rfl⟩

theorem advances_trans (s t u : State Frame) (hFirst : Advances s t) (hSecond : Advances t u) :
    Advances s u := by
  obtain ⟨pos, rfl⟩ := hFirst
  obtain ⟨pos', rfl⟩ := hSecond
  exact ⟨pos', rfl⟩

variable {ts : List TypeClass}

theorem Advances.shows {vs : List Word} {s s' : State Frame}
    (h : Advances s s') (hShows : Shows vs ts s) : Shows vs ts s' := by
  obtain ⟨pos, rfl⟩ := h
  exact ⟨⟨hShows.fits.stk, hShows.fits.typeStk, hShows.fits.le⟩, hShows.values, hShows.types⟩

section

variable {env : Env Frame} {data : List UInt8} {s : State Frame}

/-- `code_pos += n` -/
def State.advance (s : State Frame) (n : Nat) : State Frame :=
  { s with eval := { s.eval with codePos := s.eval.codePos + n } }

/-- The position of the next operation in the outermost expression. -/
def State.pos (s : State Frame) : Nat := s.eval.base + s.eval.codePos

theorem nextByte_some {b : UInt8} (hByte : data[s.pos]? = some b) :
    nextByte data s = .ok (b, s.advance 1) := by
  have hByte' : data[s.eval.base + s.eval.codePos]? = some b := hByte
  unfold nextByte
  rw [bind_get, hByte']
  rfl

theorem nextByte_none (hByte : data[s.pos]? = none) : nextByte data s = .error .fault := by
  have hByte' : data[s.eval.base + s.eval.codePos]? = none := hByte
  unfold nextByte
  rw [bind_get, hByte']
  rfl

theorem readU1_eq (hLt : s.eval.codePos < s.eval.codeLen) : readU1 data s = nextByte data s := by
  have hNot : ¬ s.eval.codeLen ≤ s.eval.codePos := Nat.not_le_of_lt hLt
  unfold readU1
  rw [bind_get]
  simp only [hNot, ↓reduceIte]

theorem readU1_end (hEnd : s.eval.codeLen ≤ s.eval.codePos) :
    readU1 data s = .error (.raise invCommand) := by
  unfold readU1
  rw [bind_get]
  simp only [hEnd, ↓reduceIte]
  rfl

theorem readU1_eq_ok {b : UInt8} {s' : State Frame} (h : readU1 data s = .ok (b, s')) :
    data[s.pos]? = some b ∧ s' = s.advance 1 := by
  rcases Nat.lt_or_ge s.eval.codePos s.eval.codeLen with hLt | hEnd
  · rw [readU1_eq hLt] at h
    cases hByte : data[s.pos]? with
    | none => cases (nextByte_none hByte).symm.trans h
    | some b' =>
      cases (nextByte_some hByte).symm.trans h
      exact ⟨rfl, rfl⟩
  · cases (readU1_end hEnd).symm.trans h

variable {signed : Bool} {w : Nat}

/-- A number in the code is read. -/
theorem lebBytes_raw {raw after : List UInt8} (hEnds : Leb128.Ends raw)
    (hRaw : data.drop s.pos = raw ++ after) (hLe : s.eval.codePos + raw.length ≤ s.eval.codeLen)
    {fuel : Nat} (hFuel : raw.length ≤ fuel) (i : Nat) (res : BitVec w) :
    lebBytes data w signed fuel i res s =
      .ok (lebWord w signed i res raw, s.advance raw.length) := by
  induction raw generalizing s fuel i res with
  | nil => exact absurd hEnds (by simp [Leb128.Ends])
  | cons b bs ih =>
    obtain ⟨fuel, rfl⟩ := Nat.exists_eq_add_of_lt (Nat.lt_of_lt_of_le (Nat.succ_pos _) hFuel)
    simp only [Nat.zero_add, List.length_cons, Nat.add_le_add_iff_right] at hFuel hLe ⊢
    have hByte : data[s.pos]? = some b := by
      have hHead : (data.drop s.pos)[0]? = some b := by
        rw [hRaw]
        rfl
      simpa using hHead
    have hRead : readU1 data s = .ok (b, s.advance 1) := by
      rw [readU1_eq (by omega)]
      exact nextByte_some hByte
    rw [lebBytes, bind_of_ok hRead]
    cases bs with
    | nil =>
      have hLast : b &&& 0x80 = 0 := (last_iff b).2 hEnds
      simp only [hLast, ↓reduceIte]
      rfl
    | cons b' bs =>
      have hMore : ¬ b &&& 0x80 = 0 := by
        rw [last_iff]
        have hLarge := hEnds.1
        omega
      simp only [hMore, ↓reduceIte]
      have hDrop : data.drop (s.advance 1).pos = b' :: bs ++ after := by
        have hTail := congrArg List.tail hRaw
        rw [List.tail_drop] at hTail
        exact hTail
      rw [ih hEnds.2 hDrop (by simp only [State.advance, List.length_cons] at hLe ⊢; omega)
        hFuel]
      simp only [State.advance, List.length_cons, Nat.add_assoc, Nat.add_comm 1]
      rfl

theorem readLeb_raw {raw after : List UInt8} (hEnds : Leb128.Ends raw)
    (hRaw : data.drop s.pos = raw ++ after)
    (hLe : s.eval.codePos + raw.length ≤ s.eval.codeLen) :
    readLeb data w signed s = .ok (lebWord w signed 0 0 raw, s.advance raw.length) := by
  unfold readLeb
  rw [bind_get]
  exact lebBytes_raw hEnds hRaw hLe (by omega) 0 0

/-- A reader leaves all but `code_pos` alone. -/
abbrev IsReader {α : Type} (p : Vm Frame α) : Prop := Relates Advances p

theorem isReader_pure {α : Type} (a : α) : IsReader (pure a : Vm Frame α) :=
  relates_pure advances_refl a

theorem IsReader.bind {α β : Type} {p : Vm Frame α} {q : α → Vm Frame β} (hp : IsReader p)
    (hq : ∀ a, IsReader (q a)) : IsReader (p >>= q) :=
  Relates.bind advances_trans hp hq

theorem IsReader.map {α β : Type} {p : Vm Frame α} (hp : IsReader p) (f : α → β) :
    IsReader (p >>= fun a => pure (f a)) :=
  hp.bind fun a => isReader_pure (f a)

theorem isReader_readU1 : IsReader (readU1 data : Vm Frame UInt8) := by
  intro s b s' h
  exact ⟨_, (readU1_eq_ok h).2⟩

theorem isReader_readU2 : IsReader (readU2 env data) :=
  isReader_readU1.bind fun _ => isReader_readU1.map _

theorem isReader_readU4 : IsReader (readU4 env data) :=
  isReader_readU2.bind fun _ => isReader_readU2.map _

theorem isReader_readU8 : IsReader (readU8 env data) :=
  isReader_readU4.bind fun _ => isReader_readU4.map _

theorem isReader_lebBytes {fuel i : Nat} {res : BitVec w} :
    IsReader (lebBytes data w signed fuel i res : Vm Frame (BitVec w)) := by
  induction fuel generalizing i res with
  | zero => exact relates_raise _
  | succ fuel ih =>
    unfold lebBytes
    exact isReader_readU1.bind fun n => relates_ite (isReader_pure _) ih

theorem isReader_readLeb :
    IsReader (readLeb data w signed : Vm Frame (BitVec w)) :=
  (relates_get advances_refl).bind advances_trans fun _ => isReader_lebBytes

theorem isReader_readIa : IsReader (readIa env data) := by
  unfold readIa
  split
  · exact isReader_readU1.map _
  · exact isReader_readU2.map _
  · exact isReader_readU4.map _
  · exact isReader_readU8
  · exact relates_raise _

theorem some_of_ite {α : Type} {c : Prop} [Decidable c] {a b : α} {o : Option α}
    (h : (if c then some a else o) = some b) : (c ∧ a = b) ∨ o = some b := by
  split at h
  · exact .inl ⟨‹c›, Option.some.inj h⟩
  · exact .inr h

/-- What reads a constant: one reader for each size. -/
theorem constant_elim {P : Vm Frame Word → Prop} {op : UInt8} {p : Vm Frame Word} {type : TypeClass}
    (h : constant env data op = some (p, type)) (hIa : P (readIa env data))
    (hU1 : ∀ f : UInt8 → Word, P (readU1 data >>= fun b => pure (f b)))
    (hU2 : ∀ f : BitVec 16 → Word, P (readU2 env data >>= fun b => pure (f b)))
    (hU4 : ∀ f : BitVec 32 → Word, P (readU4 env data >>= fun b => pure (f b)))
    (hU8 : P (readU8 env data)) (hLeb : ∀ signed, P (readLeb data 64 signed))
    (hPure : ∀ w, P (pure w)) :
    P p := by
  unfold constant at h
  obtain ⟨-, ⟨⟩⟩ | h := some_of_ite h
  · exact hIa
  obtain ⟨-, ⟨⟩⟩ | h := some_of_ite h
  · exact hU1 _
  obtain ⟨-, ⟨⟩⟩ | h := some_of_ite h
  · exact hU1 _
  obtain ⟨-, ⟨⟩⟩ | h := some_of_ite h
  · exact hU2 _
  obtain ⟨-, ⟨⟩⟩ | h := some_of_ite h
  · exact hU2 _
  obtain ⟨-, ⟨⟩⟩ | h := some_of_ite h
  · exact hU4 _
  obtain ⟨-, ⟨⟩⟩ | h := some_of_ite h
  · exact hU4 _
  obtain ⟨-, ⟨⟩⟩ | h := some_of_ite h
  · exact hU8
  obtain ⟨-, ⟨⟩⟩ | h := some_of_ite h
  · exact hU8
  obtain ⟨-, ⟨⟩⟩ | h := some_of_ite h
  · exact hLeb _
  obtain ⟨-, ⟨⟩⟩ | h := some_of_ite h
  · exact hLeb _
  obtain ⟨-, ⟨⟩⟩ | h := some_of_ite h
  · exact hPure _
  · cases h

theorem isReader_constant {op : UInt8} {p : Vm Frame Word} {type : TypeClass}
    (h : constant env data op = some (p, type)) : IsReader p :=
  constant_elim h isReader_readIa (fun _ => isReader_readU1.map _) (fun _ => isReader_readU2.map _)
    (fun _ => isReader_readU4.map _) isReader_readU8 (fun _ => isReader_readLeb) isReader_pure

end

/-! ## Moves -/

/-- The operations that only move entries. -/
inductive Move where
  | dup | drop | over | pick (n : Nat) | swap | rot
deriving DecidableEq, Repr

/-- Entries are copied, dropped and permuted as wholes; the topmost is the first. -/
def Move.apply {α : Type} : Move → List α → Option (List α)
  | .dup, a :: l => some (a :: a :: l)
  | .drop, _ :: l => some l
  | .over, a :: b :: l => some (b :: a :: b :: l)
  | .pick n, l => l[n]?.map (· :: l)
  | .swap, a :: b :: l => some (b :: a :: l)
  | .rot, a :: b :: c :: l => some (b :: c :: a :: l)
  | _, _ => none

/-- The move that stands in the code. -/
def moveAt (data : List UInt8) (pos : Nat) : Option Move := do
  let op ← data[pos]?
  if op = Op.dup then some .dup
  else if op = Op.drop then some .drop
  else if op = Op.over then some .over
  else if op = Op.pick then data[pos + 1]?.map fun n => .pick n.toNat
  else if op = Op.swap then some .swap
  else if op = Op.rot then some .rot
  else none

theorem Move.apply_map {α β : Type} (f : α → β) (m : Move) (l : List α) :
    m.apply (l.map f) = (m.apply l).map (List.map f) := by
  match m, l with
  | .dup, [] | .dup, _ :: _ => rfl
  | .drop, [] | .drop, _ :: _ => rfl
  | .over, [] | .over, [_] | .over, _ :: _ :: _ => rfl
  | .swap, [] | .swap, [_] | .swap, _ :: _ :: _ => rfl
  | .rot, [] | .rot, [_] | .rot, [_, _] | .rot, _ :: _ :: _ :: _ => rfl
  | .pick n, l => cases h : l[n]? <;> simp [Move.apply, h]

section

variable {env : Env Frame} {data : List UInt8} {s : State Frame}

/-- The state in which an operation is executed. -/
def State.fetched (s : State Frame) : State Frame :=
  { s with eval := ({ s.eval with codePos := s.eval.codePos + 1 } : Eval Frame).reserve }

theorem evaluateStep_fetched (hPos : s.eval.codePos < s.eval.codeLen) {op : UInt8}
    (hOp : data[s.pos]? = some op) :
    evaluateStep env data s = (execute env data op >>= fun _ => pure false) s.fetched := by
  unfold evaluateStep
  rw [bind_get]
  simp only [hPos, ↓reduceIte]
  rw [bind_of_ok (nextByte_some hOp)]
  rfl

/-- The end of the outermost expression. -/
theorem evaluateStep_end (hPos : s.eval.codeLen ≤ s.eval.codePos) (hPending : s.pending = [])
    (hQuiet : s.regDef = none ∧ s.valueAddr = none ∧ s.implicitPointer = 0) :
    evaluateStep env data s = .ok (true, s) := by
  have hLast : lastPiece s = .ok ((), s) := by
    unfold lastPiece
    rw [bind_get]
    simp only [hQuiet.1, hQuiet.2.1, hQuiet.2.2]
    rfl
  unfold evaluateStep
  rw [bind_get]
  simp only [Nat.not_lt_of_le hPos, ↓reduceIte, hPending]
  rw [bind_of_ok hLast]
  rfl

theorem fetched_rest : s.fetched.rest = (s.advance 1).rest := by
  unfold State.fetched Eval.reserve
  split <;> rfl

theorem Shows.fetched {vs : List Word} (h : Shows vs ts s) :
    Shows vs ts s.fetched ∧ s.fetched.eval.stkPos < s.fetched.eval.stkMax := by
  have hStk := h.fits.stk
  have hTypes := h.fits.typeStk
  have hLe := h.fits.le
  by_cases hRoom : s.eval.stkPos + 4 > s.eval.stkMax
  · have hEq : s.fetched.eval = { s.eval with
        codePos := s.eval.codePos + 1
        stkMax := s.eval.stkMax + 8
        stk := s.eval.stk ++ List.replicate (s.eval.stkMax + 8 - s.eval.stk.length) 0
        typeStk := s.eval.typeStk ++
          List.replicate (s.eval.stkMax + 8 - s.eval.typeStk.length) .unknown } := if_pos hRoom
    refine ⟨⟨⟨?_, ?_, ?_⟩, ?_, ?_⟩, ?_⟩
    · rw [hEq, List.length_append, List.length_replicate]
      show _ = s.eval.stkMax + 8
      omega
    · rw [hEq, List.length_append, List.length_replicate]
      show _ = s.eval.stkMax + 8
      omega
    · rw [hEq]
      show s.eval.stkPos ≤ s.eval.stkMax + 8
      omega
    · rw [hEq, ← h.values]
      exact fromTop_append h.le_stk _
    · rw [hEq, ← h.types]
      exact fromTop_append h.le_typeStk _
    · rw [hEq]
      show s.eval.stkPos < s.eval.stkMax + 8
      omega
  · have hEq : s.fetched.eval = { s.eval with codePos := s.eval.codePos + 1 } := if_neg hRoom
    refine ⟨⟨⟨?_, ?_, ?_⟩, ?_, ?_⟩, ?_⟩ <;> rw [hEq]
    · exact hStk
    · exact hTypes
    · exact hLe
    · exact h.values
    · exact h.types
    · show s.eval.stkPos < s.eval.stkMax
      omega

end

section

variable {env : Env Frame} {data : List UInt8} {s : State Frame} {vs : List Word}
  {ts : List TypeClass}

/-- The types of the first and the third entry are exchanged, and the one of the second entry is
lost. -/
theorem gives_rot {a b c : Word} {ta tb tc : TypeClass}
    (h : Shows (a :: b :: c :: vs) (ta :: tb :: tc :: ts) s) :
    Gives (execute env data Op.rot)
      (fun _ s' => Shows (b :: c :: a :: vs) (tb :: ta :: tc :: ts) s') s := by
  have hExecute : execute env data Op.rot = (do
      checkStack 3
      let value ← stkAt 1
      let type ← typeAt 1
      setStkAt 1 (← stkAt 2)
      setTypeAt 1 (← typeAt 2)
      setStkAt 2 (← stkAt 3)
      setTypeAt 2 (← typeAt 3)
      setStkAt 3 value
      setTypeAt 2 type : Vm Frame Unit) := rfl
  rw [hExecute]
  refine (gives_checkStack h (by simp)).bind ?_
  rintro _ s rfl
  refine (gives_stkAt h (k := 0) rfl).reads ?_
  refine (gives_typeAt h (k := 0) rfl).reads ?_
  refine (gives_stkAt h (k := 1) rfl).reads ?_
  refine (gives_setStkAt h (k := 0) (by simp) _).bind fun _ s ⟨h, _⟩ => ?_
  refine (gives_typeAt h (k := 1) rfl).reads ?_
  refine (gives_setTypeAt h (k := 0) (by simp) _).bind fun _ s ⟨h, _⟩ => ?_
  refine (gives_stkAt h (k := 2) rfl).reads ?_
  refine (gives_setStkAt h (k := 1) (by simp) _).bind fun _ s ⟨h, _⟩ => ?_
  refine (gives_typeAt h (k := 2) rfl).reads ?_
  refine (gives_setTypeAt h (k := 1) (by simp) _).bind fun _ s ⟨h, _⟩ => ?_
  refine (gives_setStkAt h (k := 2) (by simp) _).bind fun _ s ⟨h, _⟩ => ?_
  exact (gives_setTypeAt h (k := 1) (by simp) _).mono fun _ _ h => h.1

variable {ta : TypeClass}

theorem gives_dup {a : Word} (h : Shows (a :: vs) (ta :: ts) s)
    (hRoom : s.eval.stkPos < s.eval.stkMax) :
    Gives (execute env data Op.dup)
      (fun _ s' => Shows (a :: a :: vs) (ta :: ta :: ts) s') s := by
  have hExecute : execute env data Op.dup = (do
      checkStack 1
      push (← stkAt 1) (← typeAt 1) : Vm Frame Unit) := rfl
  rw [hExecute]
  refine (gives_checkStack h (by simp)).bind ?_
  rintro _ s rfl
  refine (gives_stkAt h (k := 0) rfl).reads ?_
  refine (gives_typeAt h (k := 0) rfl).reads ?_
  exact (gives_push h hRoom _ _).mono fun _ _ h => h.1

theorem gives_drop {a : Word} (h : Shows (a :: vs) (ta :: ts) s) :
    Gives (execute env data Op.drop) (fun _ s' => Shows vs ts s') s := by
  have hExecute : execute env data Op.drop = (do
      checkStack 1
      dropTop : Vm Frame Unit) := rfl
  rw [hExecute]
  refine (gives_checkStack h (by simp)).bind ?_
  rintro _ s rfl
  exact (gives_dropTop h (by simp)).mono fun _ _ h => h.1

theorem gives_over {a b : Word} {ta tb : TypeClass}
    (h : Shows (a :: b :: vs) (ta :: tb :: ts) s) (hRoom : s.eval.stkPos < s.eval.stkMax) :
    Gives (execute env data Op.over)
      (fun _ s' => Shows (b :: a :: b :: vs) (tb :: ta :: tb :: ts) s') s := by
  have hExecute : execute env data Op.over = (do
      checkStack 2
      push (← stkAt 2) (← typeAt 2) : Vm Frame Unit) := rfl
  rw [hExecute]
  refine (gives_checkStack h (by simp)).bind ?_
  rintro _ s rfl
  refine (gives_stkAt h (k := 1) rfl).reads ?_
  refine (gives_typeAt h (k := 1) rfl).reads ?_
  exact (gives_push h hRoom _ _).mono fun _ _ h => h.1

theorem gives_swap {a b : Word} {ta tb : TypeClass}
    (h : Shows (a :: b :: vs) (ta :: tb :: ts) s) :
    Gives (execute env data Op.swap)
      (fun _ s' => Shows (b :: a :: vs) (tb :: ta :: ts) s') s := by
  have hExecute : execute env data Op.swap = (do
      checkStack 2
      let value ← stkAt 1
      let type ← typeAt 1
      setStkAt 1 (← stkAt 2)
      setTypeAt 1 (← typeAt 2)
      setStkAt 2 value
      setTypeAt 2 type : Vm Frame Unit) := rfl
  rw [hExecute]
  refine (gives_checkStack h (by simp)).bind ?_
  rintro _ s rfl
  refine (gives_stkAt h (k := 0) rfl).reads ?_
  refine (gives_typeAt h (k := 0) rfl).reads ?_
  refine (gives_stkAt h (k := 1) rfl).reads ?_
  refine (gives_setStkAt h (k := 0) (by simp) _).bind fun _ s ⟨h, _⟩ => ?_
  refine (gives_typeAt h (k := 1) rfl).reads ?_
  refine (gives_setTypeAt h (k := 0) (by simp) _).bind fun _ s ⟨h, _⟩ => ?_
  refine (gives_setStkAt h (k := 1) (by simp) _).bind fun _ s ⟨h, _⟩ => ?_
  exact (gives_setTypeAt h (k := 1) (by simp) _).mono fun _ _ h => h.1

theorem pick_shows {n : UInt8} (h : Shows vs ts s) (hRoom : s.eval.stkPos < s.eval.stkMax)
    {a : Word} (ha : vs[n.toNat]? = some a) (hta : ts[n.toNat]? = some ta)
    (hByte : data[s.pos]? = some n) {s' : State Frame}
    (hRun : execute env data Op.pick s = .ok ((), s')) : Shows (a :: vs) (ta :: ts) s' := by
  have hExecute : execute env data Op.pick = (do
      let n ← readU1 data
      checkStack (n.toNat + 1)
      push (← stkAt (n.toNat + 1)) (← typeAt (n.toNat + 1)) : Vm Frame Unit) := rfl
  rw [hExecute] at hRun
  obtain ⟨b, s₁, hRead, hRest⟩ := bind_eq_ok.1 hRun
  obtain ⟨hSame, rfl⟩ := readU1_eq_ok hRead
  cases hSame.symm.trans hByte
  have hShows : Shows vs ts (s.advance 1) :=
    ⟨⟨h.fits.stk, h.fits.typeStk, h.fits.le⟩, h.values, h.types⟩
  have hLength : n.toNat + 1 ≤ vs.length := (List.getElem?_eq_some_iff.1 ha).1
  refine Gives.of_ok (Q := fun _ s' => Shows (a :: vs) (ta :: ts) s') ?_ hRest
  refine (gives_checkStack hShows hLength).bind ?_
  rintro _ s rfl
  refine (gives_stkAt hShows ha).reads ?_
  refine (gives_typeAt hShows hta).reads ?_
  exact (gives_push hShows hRoom _ _).mono fun _ _ h => h.1

end

/-! ## Traces -/

/-- The opcode of a move. -/
def Move.op : Move → UInt8
  | .dup => Op.dup
  | .drop => Op.drop
  | .over => Op.over
  | .pick _ => Op.pick
  | .swap => Op.swap
  | .rot => Op.rot

/-- An evaluation with what has been pushed, and for every entry, the topmost first, the number of
the push that it comes from. -/
structure Traced (Frame : Type) where
  vm      : State Frame
  pushes  : List (Word × TypeClass)
  origins : List Nat

def Eval.values (e : Eval Frame) : List Word := fromTop e.stkPos e.stk

def Eval.types (e : Eval Frame) : List TypeClass := fromTop e.stkPos e.typeStk

/-- What is on the stack in the beginning has been pushed before. -/
def Traced.start (s : State Frame) : Traced Frame where
  vm := s
  pushes := s.eval.values.zip s.eval.types
  origins := List.range s.eval.stkPos

section

variable (env : Env Frame) (data : List UInt8)

/-- Whether the operation pushes a constant. -/
def isConstant (pos : Nat) : Bool := (data[pos]?.bind fun op => constant env data op).isSome

/-- A step at a move or at a constant; there is none at another operation, at the end, or where
the evaluation raises an exception. -/
def traceStep (t : Traced Frame) : Option (Traced Frame) :=
  if t.vm.eval.codePos < t.vm.eval.codeLen then
    match evaluateStep env data t.vm with
    | .ok (false, s) =>
      match moveAt data t.vm.pos with
      | some m => (m.apply t.origins).map fun origins => { t with vm := s, origins }
      | none =>
        if isConstant env data t.vm.pos then
          (s.eval.values.zip s.eval.types).head?.map fun cell =>
            { vm := s, pushes := t.pushes ++ [cell], origins := t.pushes.length :: t.origins }
        else none
    | _ => none
  else none

/-- The steps of an expression of moves and constants. -/
def Reaches (s : State Frame) (t : Traced Frame) : Prop :=
  Relation.ReflTransGen (fun t t' => traceStep env data t = some t') (.start s) t

end

theorem Reaches.step {env : Env Frame} {data : List UInt8} {s : State Frame} {t t' : Traced Frame}
    (h : Reaches env data s t) (hStep : traceStep env data t = some t') :
    Reaches env data s t' :=
  Relation.ReflTransGen.tail h hStep

/-- Every value is the one that was pushed where it comes from, and the type next to it is the one
it was pushed with. -/
structure Tagged (t : Traced Frame) : Prop where
  values : t.vm.eval.values.map some = t.origins.map fun o => t.pushes[o]?.map Prod.fst
  types  : t.vm.eval.types.map some = t.origins.map fun o => t.pushes[o]?.map Prod.snd

/-- Where `OP_rot` is next, the first entry and the third one have the same type. -/
def RotatesEvenly (data : List UInt8) (t : Traced Frame) : Prop :=
  moveAt data t.vm.pos = some .rot → t.vm.eval.codePos < t.vm.eval.codeLen →
    ∀ a b c ts, t.vm.eval.types = a :: b :: c :: ts → a = c

section

variable {env : Env Frame} {data : List UInt8} {s s' : State Frame} {vs vs' : List Word}
  {ts ts' : List TypeClass}

theorem moveAt_op {pos : Nat} {m : Move} (h : moveAt data pos = some m) :
    data[pos]? = some m.op ∧
      ∀ n, m = .pick n → ∃ b, data[pos + 1]? = some b ∧ b.toNat = n := by
  unfold moveAt at h
  rw [Option.bind_eq_bind, Option.bind_eq_some_iff] at h
  obtain ⟨op, hOp, h⟩ := h
  rw [hOp]
  split at h
  · cases h
    exact ⟨congrArg some ‹_›, fun n hn => by cases hn⟩
  split at h
  · cases h
    exact ⟨congrArg some ‹_›, fun n hn => by cases hn⟩
  split at h
  · cases h
    exact ⟨congrArg some ‹_›, fun n hn => by cases hn⟩
  split at h
  · obtain ⟨b, hb, hm⟩ := Option.map_eq_some_iff.1 h
    subst hm
    refine ⟨congrArg some ‹_›, fun n hn => ⟨b, hb, ?_⟩⟩
    cases hn
    rfl
  split at h
  · cases h
    exact ⟨congrArg some ‹_›, fun n hn => by cases hn⟩
  split at h
  · cases h
    exact ⟨congrArg some ‹_›, fun n hn => by cases hn⟩
  · cases h

/-- What is executed in a step. -/
theorem execute_of_step (hPos : s.eval.codePos < s.eval.codeLen) {op : UInt8}
    (hOp : data[s.pos]? = some op) (hStep : evaluateStep env data s = .ok (false, s')) :
    execute env data op s.fetched = .ok ((), s') := by
  rw [evaluateStep_fetched hPos hOp] at hStep
  obtain ⟨_, t, hRun, hEnd⟩ := bind_eq_ok.1 hStep
  cases hEnd
  exact hRun

/-- A move moves entries as wholes, `OP_rot` where the first and the third have the same type. -/
theorem move_shows (h : Shows vs ts s) (hPos : s.eval.codePos < s.eval.codeLen) {m : Move}
    (hMove : moveAt data s.pos = some m) (hValues : m.apply vs = some vs')
    (hTypes : m.apply ts = some ts') (hRot : m = .rot → ∀ a b c r, ts = a :: b :: c :: r → a = c)
    (hStep : evaluateStep env data s = .ok (false, s')) : Shows vs' ts' s' := by
  obtain ⟨hOp, hPick⟩ := moveAt_op hMove
  obtain ⟨hShows, hRoom⟩ := h.fetched
  have hRun := execute_of_step hPos hOp hStep
  match m, vs, ts with
  | .dup, a :: vs, ta :: ts =>
    cases hValues
    cases hTypes
    exact (gives_dup hShows hRoom).of_ok hRun
  | .drop, a :: vs, ta :: ts =>
    cases hValues
    cases hTypes
    exact (gives_drop hShows).of_ok hRun
  | .over, a :: b :: vs, ta :: tb :: ts =>
    cases hValues
    cases hTypes
    exact (gives_over hShows hRoom).of_ok hRun
  | .pick n, vs, ts =>
    obtain ⟨a, ha, rfl⟩ := Option.map_eq_some_iff.1 hValues
    obtain ⟨ta, hta, rfl⟩ := Option.map_eq_some_iff.1 hTypes
    obtain ⟨b, hb, rfl⟩ := hPick n rfl
    have hByte : data[s.fetched.pos]? = some b := by
      have hRest : s.fetched.rest = (s.advance 1).rest := fetched_rest
      have hPosEq : s.fetched.pos = (s.advance 1).pos :=
        (congrArg (fun t : State Frame => t.eval.base + t.eval.codePos) hRest :)
      rw [← hb, hPosEq]
      rfl
    exact pick_shows hShows hRoom ha hta hByte hRun
  | .swap, a :: b :: vs, ta :: tb :: ts =>
    cases hValues
    cases hTypes
    exact (gives_swap hShows).of_ok hRun
  | .rot, a :: b :: c :: vs, ta :: tb :: tc :: ts =>
    cases hValues
    cases hTypes
    cases hRot rfl ta tb tc ts rfl
    exact (gives_rot hShows).of_ok hRun

/-- A constant is pushed. -/
theorem constant_shows (h : Shows vs ts s) (hPos : s.eval.codePos < s.eval.codeLen)
    (hConstant : isConstant env data s.pos = true)
    (hStep : evaluateStep env data s = .ok (false, s')) :
    ∃ v t, Shows (v :: vs) (t :: ts) s' := by
  obtain ⟨⟨p, t⟩, hEntry⟩ := Option.isSome_iff_exists.1 hConstant
  obtain ⟨op, hOp, hEntry⟩ := Option.bind_eq_some_iff.1 hEntry
  obtain ⟨hShows, hRoom⟩ := h.fetched
  have hRun := execute_of_step hPos hOp hStep
  unfold execute at hRun
  rw [hEntry] at hRun
  obtain ⟨v, s₁, hRead, hPush⟩ := bind_eq_ok.1 hRun
  have hAdvances : Advances s.fetched s₁ := isReader_constant hEntry hRead
  have hShows₁ := hAdvances.shows hShows
  obtain ⟨pos, rfl⟩ := hAdvances
  exact ⟨v, t, ((gives_push hShows₁ hRoom v t).of_ok hPush).1⟩

theorem shows_of_fits (hFits : s.eval.Fits) : Shows s.eval.values s.eval.types s :=
  ⟨hFits, rfl, rfl⟩

theorem Shows.eval (h : Shows vs ts s) : s.eval.values = vs ∧ s.eval.types = ts :=
  ⟨h.values, h.types⟩

theorem tagged_start (hFits : s.eval.Fits) : Tagged (.start s) := by
  have hValues := (shows_of_fits hFits).length_values
  have hTypes := (shows_of_fits hFits).length_types
  refine ⟨List.ext_getElem? fun k => ?_, List.ext_getElem? fun k => ?_⟩
  · show (s.eval.values.map some)[k]? = ((List.range s.eval.stkPos).map _)[k]?
    by_cases hk : k < s.eval.stkPos
    · have hv : k < s.eval.values.length := by rwa [hValues]
      have ht : k < s.eval.types.length := by rwa [hTypes]
      simp [Traced.start, hk, hv, ht]
    · rw [List.getElem?_eq_none, List.getElem?_eq_none]
      · simpa using hk
      · simpa [hValues] using hk
  · show (s.eval.types.map some)[k]? = ((List.range s.eval.stkPos).map _)[k]?
    by_cases hk : k < s.eval.stkPos
    · have hv : k < s.eval.values.length := by rwa [hValues]
      have ht : k < s.eval.types.length := by rwa [hTypes]
      simp [Traced.start, hk, hv, ht]
    · rw [List.getElem?_eq_none, List.getElem?_eq_none]
      · simpa using hk
      · simpa [hTypes] using hk

/-- Entries that come from pushes move as the numbers of the pushes do. -/
theorem Move.apply_tagged {α : Type} {m : Move} {l : List α} {origins origins' : List Nat}
    {f : Nat → Option α} (hTagged : l.map some = origins.map f)
    (hMove : m.apply origins = some origins') :
    ∃ l', m.apply l = some l' ∧ l'.map some = origins'.map f := by
  have hRight := m.apply_map f origins
  have hLeft := m.apply_map some l
  rw [hMove] at hRight
  rw [hTagged, hRight] at hLeft
  obtain ⟨l', hApply, hEq⟩ := Option.map_eq_some_iff.1 hLeft.symm
  exact ⟨l', hApply, hEq⟩

/-- What has been pushed stays where it is. -/
theorem Tagged.map_push {α : Type} {t : Traced Frame} {l : List α} {f : Word × TypeClass → α}
    (h : l.map some = t.origins.map fun o => t.pushes[o]?.map f) (cell : Word × TypeClass) :
    (f cell :: l).map some = (t.pushes.length :: t.origins).map fun o =>
      (t.pushes ++ [cell])[o]?.map f := by
  have hOld : ∀ o ∈ t.origins, (t.pushes ++ [cell])[o]?.map f = t.pushes[o]?.map f := by
    intro o ho
    have hMem : t.pushes[o]?.map f ∈ l.map some := by
      rw [h]
      exact List.mem_map_of_mem ho
    obtain ⟨a, -, ha⟩ := List.mem_map.1 hMem
    obtain ⟨c, hc, -⟩ := Option.map_eq_some_iff.1 ha.symm
    rw [List.getElem?_append_left (List.getElem?_eq_some_iff.1 hc).1]
  rw [List.map_cons, List.map_cons, h, List.map_congr_left hOld]
  simp

theorem tagged_step {t t' : Traced Frame} (hFits : t.vm.eval.Fits) (h : Tagged t)
    (hRot : RotatesEvenly data t) (hStep : traceStep env data t = some t') :
    t'.vm.eval.Fits ∧ Tagged t' := by
  unfold traceStep at hStep
  split at hStep
  · rename_i hPos
    split at hStep
    · rename_i s hRun
      have hShows := shows_of_fits hFits
      split at hStep
      · rename_i m hMove
        obtain ⟨origins, hOrigins, rfl⟩ := Option.map_eq_some_iff.1 hStep
        obtain ⟨vs', hValues, hv⟩ := Move.apply_tagged h.values hOrigins
        obtain ⟨ts', hTypes, ht⟩ := Move.apply_tagged h.types hOrigins
        have hNew := move_shows hShows hPos hMove hValues hTypes (fun hEq a b c r hCells =>
          hRot (hEq ▸ hMove) hPos a b c r hCells) hRun
        refine ⟨hNew.fits, ?_, ?_⟩
        · show s.eval.values.map some = _
          rw [hNew.eval.1, hv]
        · show s.eval.types.map some = _
          rw [hNew.eval.2, ht]
      · split at hStep
        · rename_i hConstant
          obtain ⟨v, ty, hNew⟩ := constant_shows hShows hPos hConstant hRun
          rw [hNew.eval.1, hNew.eval.2] at hStep
          cases hStep
          refine ⟨hNew.fits, ?_, ?_⟩
          · show s.eval.values.map some = _
            rw [hNew.eval.1]
            exact Tagged.map_push h.values (v, ty)
          · show s.eval.types.map some = _
            rw [hNew.eval.2]
            exact Tagged.map_push h.types (v, ty)
        · cases hStep
    · cases hStep
  · cases hStep

/-- `OP_rot` can be executed, and leaves the type of the first entry with the second one. -/
theorem tagged_rot {t : Traced Frame} (hFits : t.vm.eval.Fits) (h : Tagged t)
    (hMove : moveAt data t.vm.pos = some .rot) (hPos : t.vm.eval.codePos < t.vm.eval.codeLen)
    {ta tb tc : TypeClass} (hTypes : t.vm.eval.types = ta :: tb :: tc :: ts) :
    ∃ t', traceStep env data t = some t' ∧ (Tagged t' → ta = tc) := by
  have hShows := shows_of_fits hFits
  have hLength : t.vm.eval.values.length = (ta :: tb :: tc :: ts).length := by
    rw [hShows.length_values, ← hTypes, hShows.length_types]
  obtain ⟨a, b, c, vs, hValues⟩ : ∃ a b c vs, t.vm.eval.values = a :: b :: c :: vs := by
    match hEq : t.vm.eval.values with
    | [] | [_] | [_, _] =>
      rw [hEq] at hLength
      simp at hLength
    | a :: b :: c :: vs => exact ⟨a, b, c, vs, rfl⟩
  have hOriginsLength : t.origins.length = (ta :: tb :: tc :: ts).length := by
    have hSame := congrArg List.length h.types
    rw [List.length_map, List.length_map] at hSame
    rw [← hTypes, hSame]
  obtain ⟨oa, ob, oc, os, hOrigins⟩ : ∃ oa ob oc os, t.origins = oa :: ob :: oc :: os := by
    match hEq : t.origins with
    | [] | [_] | [_, _] =>
      rw [hEq] at hOriginsLength
      simp at hOriginsLength
    | oa :: ob :: oc :: os => exact ⟨oa, ob, oc, os, rfl⟩
  rw [hValues, hTypes] at hShows
  have hGives : Gives (execute env data Op.rot) _ _ := gives_rot hShows.fetched.1
  obtain ⟨_, s', hRun, hNew⟩ := hGives
  have hStep : evaluateStep env data t.vm = .ok (false, s') := by
    rw [evaluateStep_fetched hPos (moveAt_op hMove).1]
    exact bind_of_ok hRun
  have hApply : Move.rot.apply t.origins = some (ob :: oc :: oa :: os) := by
    rw [hOrigins]
    rfl
  refine ⟨{ t with vm := s', origins := ob :: oc :: oa :: os }, ?_, fun hTagged => ?_⟩
  · unfold traceStep
    rw [if_pos hPos, hStep]
    rw [hMove]
    dsimp only
    rw [hApply]
    rfl
  -- the types are moved the other way than the values
  · have hOld := h.types
    have hAfter := hTagged.types
    have hList : s'.eval.types = tb :: ta :: tc :: ts := hNew.eval.2
    rw [hTypes, hOrigins] at hOld
    rw [hList] at hAfter
    simp only [List.map_cons, List.cons.injEq] at hOld hAfter
    exact Option.some.inj (hAfter.2.1.trans hOld.2.2.1.symm)

/-- The types move along with the values exactly when every `OP_rot` finds the same type at the
first and at the third entry. -/
theorem tags_move_along (env : Env Frame) (data : List UInt8) {s : State Frame}
    (hFits : s.eval.Fits) :
    (∀ t, Reaches env data s t → Tagged t) ↔
      ∀ t, Reaches env data s t → RotatesEvenly data t := by
  constructor
  · intro hAll
    have hEven : ∀ t, Reaches env data s t → t.vm.eval.Fits → RotatesEvenly data t := by
      intro t hReach hFitsT hMove hPos ta tb tc ts hTypes
      obtain ⟨t', hStep, hSame⟩ := tagged_rot hFitsT (hAll t hReach) hMove hPos hTypes
      exact hSame (hAll t' (hReach.step hStep))
    intro t hReach
    refine hEven t hReach ?_
    induction hReach with
    | refl => exact hFits
    | tail hInit hStep ih => exact (tagged_step ih (hAll _ hInit) (hEven _ hInit ih) hStep).1
  · intro hEven t hReach
    have hBoth : t.vm.eval.Fits ∧ Tagged t := by
      induction hReach with
      | refl => exact ⟨hFits, tagged_start hFits⟩
      | tail hInit hStep ih => exact tagged_step ih.1 ih.2 (hEven _ hInit) hStep
    exact hBoth.2

end

/-- A target with nothing but frames. -/
def bareEnv (big : Bool) : Env Unit where
  bigEndian := big
  addrSize := 8
  getRegById := fun _ => .error Err.invContext
  target := fun _ =>
    { readRegValue := fun _ => .error Err.invContext
      contextReadMem := fun _ size => .ok (Vector.replicate size 0)
      frame := none
      shlOver := fun _ _ => 0
      shrOver := fun _ _ => 0 }
  readReg := fun _ _ => .error Err.invContext
  prevFrame := fun _ => .ok ()
  symbolValue := fun _ => .error Err.invContext
  intShift := fun _ _ => 0
  strayBit := fun _ _ => false
  overrun := fun _ => .error (exception Err.other)

/-- An evaluation of this code with an empty stack. -/
def Eval.empty (data : List UInt8) : Eval Unit :=
  ⟨(), [], 0, 0, data.length, [], [], 0, 0, []⟩

def State.empty (data : List UInt8) : State Unit := ⟨.empty data, none, none, 0, []⟩

theorem tags_move_along_swap :
    (∀ t, Reaches (bareEnv false) [Op.const1s, 1, Op.lit0, Op.swap]
      (.empty [Op.const1s, 1, Op.lit0, Op.swap]) t → Tagged t) ↔
    ∀ t, Reaches (bareEnv false) [Op.const1s, 1, Op.lit0, Op.swap]
      (.empty [Op.const1s, 1, Op.lit0, Op.swap]) t →
        RotatesEvenly [Op.const1s, 1, Op.lit0, Op.swap] t :=
  tags_move_along (bareEnv false) [Op.const1s, 1, Op.lit0, Op.swap]
    ⟨rfl, rfl, Nat.le_refl 0⟩

/-- The signed 1 is below the unsigned 0 and 31; after `OP_rot` it is still the third entry that is
signed. -/
theorem rot_leaves_type : ∃ t, Reaches (bareEnv false)
      [Op.const1s, 1, Op.lit0, Op.lit31, Op.rot] (.empty [Op.const1s, 1, Op.lit0, Op.lit31, Op.rot])
      t ∧
    t.vm.eval.values = [0, 1, 31] ∧ t.vm.eval.types = [.cardinal, .cardinal, .integer] ∧
      t.pushes = [(1, .integer), (0, .cardinal), (31, .cardinal)] ∧ t.origins = [1, 0, 2] ∧
      ¬ Tagged t := by
  have hStart : Reaches (bareEnv false) [Op.const1s, 1, Op.lit0, Op.lit31, Op.rot]
      (.empty [Op.const1s, 1, Op.lit0, Op.lit31, Op.rot]) (.start _) := .refl
  refine ⟨_, (((hStart.step rfl).step rfl).step rfl).step rfl, rfl, rfl, rfl, rfl, fun h => ?_⟩
  have hTypes := h.types
  revert hTypes
  decide

end TcfAgent.VmEval
