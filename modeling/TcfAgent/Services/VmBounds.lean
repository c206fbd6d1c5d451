import TcfAgent.Lib.Fallible
import TcfAgent.Lib.Run
import TcfAgent.Services.VmPieces

/-!
# Accesses out of bounds

What the operations of `evaluate_expression` touch: entries of the two stacks, bytes of the code,
the eight bytes of `read_memory`. Every operation is taken from a state in which these are in
bounds to such a state, or raises an exception; four operations do so only where their operands
fit.

Main results:

* `leads_execute` — one operation;
* `leads_evaluateStep` — one step, the ends of nested expressions included;
* `bounds_kept`   — any number of steps.
-/

namespace TcfAgent.VmEval

open TcfAgent.Lib TcfAgent.Location TcfAgent.Dwarf
open TcfAgent.Vm (TypeClass invDwarf invStack)
open TcfAgent.DwarfTransform (isUnsigned isSigned)

variable {Frame : Type}

/-! ## Reasons -/

/-- A call of the target fails with this error. -/
inductive Env.Fails (env : Env Frame) : Nat → Prop
  | getRegById {id n} (h : env.getRegById id = .error n) : env.Fails n
  | readRegValue {frame reg n} (h : (env.target frame).readRegValue reg = .error n) : env.Fails n
  | contextReadMem {frame addr size n}
    (h : (env.target frame).contextReadMem addr size = .error n) : env.Fails n
  | readReg {frame reg n} (h : env.readReg frame reg = .error n) : env.Fails n
  | prevFrame {frame n} (h : env.prevFrame frame = .error n) : env.Fails n
  | symbolValue {id n} (h : env.symbolValue id = .error n) : env.Fails n

/-- The reasons that do not lie in the form of the expression. -/
inductive Foreign (env : Env Frame) : Failure → Prop
  | call {n} (h : env.Fails n) : Foreign env (exception n)
  | unsupported (op : UInt8) : Foreign env (Vm.unsupported op)
  | noFrame : Foreign env (strException Err.invAddress "Stack frame address not available")
  | noObject : Foreign env (exception Err.invContObj)
  | unavailable :
    Foreign env (strException Err.other "Object is not available at this location in the code")
  | optimizedAway :
    Foreign env (strException Err.other "Cannot get symbol value: optimized away")
  | implicitPointer :
    Foreign env (strException Err.other "Cannot get symbol value: implicit pointer")
  | overrun {pieces f} (h : env.overrun pieces = .error f) : Foreign env f

/-- `ERR_INV_DWARF`, or a reason outside of the expression. -/
def Explained (env : Env Frame) (f : Failure) : Prop := f.errno = Err.invDwarf ∨ Foreign env f

/-! ## States in bounds -/

/-- What is kept for the ends of the expressions around; `base` is where the code of the innermost
one begins. -/
def PendingFits (data : List UInt8) : (base : Nat) → List (Pending Frame) → Prop
  | _, [] => True
  | base, .switchBody _ codeLenOrg :: pending =>
    base + codeLenOrg ≤ data.length ∧ PendingFits data base pending
  | _, .entryValue saved _ :: pending =>
    (saved.Fits ∧ saved.stkPos < saved.stkMax ∧ saved.base + saved.codeLen ≤ data.length) ∧
      PendingFits data saved.base pending

/-- The code that runs is inside of the data, and the stack fits. -/
structure State.Sound (data : List UInt8) (s : State Frame) : Prop where
  fits    : s.eval.Fits
  inside  : s.eval.base + s.eval.codeLen ≤ data.length
  pending : PendingFits data s.eval.base s.pending

/-- There are `n` entries. -/
structure Deep (data : List UInt8) (n : Nat) (s : State Frame) : Prop extends s.Sound data where
  deep : n ≤ s.eval.stkPos

/-- There are `n` entries and room for one more. -/
structure Roomy (data : List UInt8) (n : Nat) (s : State Frame) : Prop extends Deep data n s where
  room : s.eval.stkPos < s.eval.stkMax

section

variable {env : Env Frame} {data : List UInt8} {s s' : State Frame} {P : State Frame → Prop}
  {n k : Nat}

theorem Advances.sound (h : Advances s s') (hSound : s.Sound data) : s'.Sound data := by
  obtain ⟨pos, rfl⟩ := h
  exact { hSound with fits := { hSound.fits with } }

theorem Advances.deep (h : Advances s s') (hDeep : Deep data n s) : Deep data n s' := by
  obtain ⟨pos, rfl⟩ := h
  exact ⟨Advances.sound ⟨pos, rfl⟩ hDeep.toSound, hDeep.deep⟩

theorem Advances.roomy (h : Advances s s') (hRoomy : Roomy data n s) : Roomy data n s' := by
  obtain ⟨pos, rfl⟩ := h
  exact ⟨Advances.deep ⟨pos, rfl⟩ hRoomy.toDeep, hRoomy.room⟩

/-! ## The stack -/

theorem leads_checkStack (n : Nat) :
    Leads (Explained env) P (checkStack n) (fun s => P s ∧ n ≤ s.eval.stkPos) := by
  refine leads_get fun s hs => safely_ite (fun _ => .inl rfl) fun hNot => ?_
  exact ⟨hs, Nat.not_lt.1 hNot⟩

theorem slot_of_deep (h : Deep data n s) (hPos : 1 ≤ k) (hLe : k ≤ n) :
    slot k s = .ok (s.eval.stkPos - k, s) := by
  have hDeep := h.deep
  obtain ⟨j, rfl⟩ : ∃ j, k = j + 1 := ⟨k - 1, by omega⟩
  exact slot_eq (by omega)

variable {α : Type}

theorem get_of_some {l : List α} {i : Nat} (h : i < l.length) :
    ∃ a, l[i]? = some a := ⟨l.get ⟨i, h⟩, List.getElem?_eq_getElem h⟩

/-- An entry is read. -/
theorem leads_stkAt (hP : ∀ s, P s → Deep data n s) (hPos : 1 ≤ k) (hLe : k ≤ n) :
    Leads (Explained env) P (stkAt k) P := by
  intro s hs
  have hDeep := (hP s hs).deep
  have hFits := (hP s hs).fits
  have hLt : s.eval.stkPos - k < s.eval.stk.length := by
    have hStk := hFits.stk
    have hMax := hFits.le
    omega
  obtain ⟨v, hv⟩ := get_of_some hLt
  refine (safely_bind_of_ok (slot_of_deep (hP s hs) hPos hLe)).2 (safely_bind.2 ?_)
  exact safely_orFault.2 ⟨v, hv, hs⟩

theorem leads_typeAt (hP : ∀ s, P s → Deep data n s) (hPos : 1 ≤ k) (hLe : k ≤ n) :
    Leads (Explained env) P (typeAt k) P := by
  intro s hs
  have hDeep := (hP s hs).deep
  have hFits := (hP s hs).fits
  have hLt : s.eval.stkPos - k < s.eval.typeStk.length := by
    have hTypes := hFits.typeStk
    have hMax := hFits.le
    omega
  obtain ⟨t, ht⟩ := get_of_some hLt
  refine (safely_bind_of_ok (slot_of_deep (hP s hs) hPos hLe)).2 (safely_bind.2 ?_)
  exact safely_orFault.2 ⟨t, ht, hs⟩

/-- An entry is written. -/
theorem leads_setStkAt (hPos : 1 ≤ k) (hLe : k ≤ n) (v : Word) :
    Leads (Explained env) (Deep data n) (setStkAt k v : Vm Frame Unit) (Deep data n) := by
  intro s hs
  have hDeep := hs.deep
  have hFits := hs.fits
  have hLt : s.eval.stkPos - k < s.eval.stk.length := by
    have hStk := hFits.stk
    have hMax := hFits.le
    omega
  refine (safely_bind_of_ok (slot_of_deep hs hPos hLe)).2 (safely_bind.2 ?_)
  refine safely_bind.2 (safely_ensure.2 ⟨hLt, ?_⟩)
  exact ⟨⟨⟨by rw [List.length_set]; exact hFits.stk, hFits.typeStk, hFits.le⟩, hs.inside,
    hs.pending⟩, hs.deep⟩

theorem leads_setTypeAt (hPos : 1 ≤ k) (hLe : k ≤ n) (t : TypeClass) :
    Leads (Explained env) (Deep data n) (setTypeAt k t : Vm Frame Unit) (Deep data n) := by
  intro s hs
  have hDeep := hs.deep
  have hFits := hs.fits
  have hLt : s.eval.stkPos - k < s.eval.typeStk.length := by
    have hTypes := hFits.typeStk
    have hMax := hFits.le
    omega
  refine (safely_bind_of_ok (slot_of_deep hs hPos hLe)).2 (safely_bind.2 ?_)
  refine safely_bind.2 (safely_ensure.2 ⟨hLt, ?_⟩)
  exact ⟨⟨⟨hFits.stk, by rw [List.length_set]; exact hFits.typeStk, hFits.le⟩, hs.inside,
    hs.pending⟩, hs.deep⟩

theorem leads_dropTop :
    Leads (Explained env) (Deep data (n + 1)) (dropTop : Vm Frame Unit) (Deep data n) := by
  refine leads_get fun s hs => safely_bind.2 (safely_ensure.2 ⟨?_, ?_⟩)
  · have hDeep := hs.deep
    omega
  · have hDeep := hs.deep
    refine ⟨⟨⟨hs.fits.stk, hs.fits.typeStk, ?_⟩, hs.inside, hs.pending⟩, ?_⟩
    · exact (Nat.sub_le _ _).trans hs.fits.le
    · show n ≤ s.eval.stkPos - 1
      omega

/-- An entry is pushed to the slot that has been reserved for it. -/
theorem leads_push (v : Word) (t : TypeClass) :
    Leads (Explained env) (Roomy data n) (push v t : Vm Frame Unit) (State.Sound data) := by
  refine leads_get fun s hs => safely_bind.2 (safely_ensure.2 ⟨⟨hs.room, ?_, ?_⟩, ?_⟩)
  · rw [hs.fits.stk]
    exact hs.room
  · rw [hs.fits.typeStk]
    exact hs.room
  · exact ⟨⟨by rw [List.length_set]; exact hs.fits.stk,
      by rw [List.length_set]; exact hs.fits.typeStk, hs.room⟩, hs.inside, hs.pending⟩

/-! ## The code -/

variable (env data) in
/-- Only bytes of the code are read. -/
def Reads {α : Type} (p : Vm Frame α) : Prop :=
  ∀ s, s.Sound data → Safely p (fun _ s' => Advances s s') (Explained env) s

theorem reads_pure (a : α) : Reads env data (pure a) := fun s _ => advances_refl s

variable {f : Failure}

theorem reads_raise (h : f.errno = Err.invDwarf) :
    Reads env data (raise f : Vm Frame α) := fun _ _ => .inl h

theorem Reads.bind {α β : Type} {p : Vm Frame α} {q : α → Vm Frame β} (hp : Reads env data p)
    (hq : ∀ a, Reads env data (q a)) : Reads env data (p >>= q) := fun s hs =>
  (hp s hs).bind fun a s' h => (hq a s' (h.sound hs)).mono fun _ _ h' => advances_trans s s' _ h h'

/-- What holds wherever the code is being read holds afterwards. -/
theorem Reads.leads {p : Vm Frame α} (hp : Reads env data p)
    (hSound : ∀ s, P s → s.Sound data) (hP : ∀ s s', Advances s s' → P s → P s') :
    Leads (Explained env) P p P := fun s hs =>
  (hp s (hSound s hs)).mono fun _ s' h => hP s s' h hs

theorem Reads.result {p : Vm Frame α} (hp : Reads env data p) (hs : s.Sound data) :
    Safely p (fun a s' => Advances s s' ∧ p s = .ok (a, s')) (Explained env) s :=
  (hp s hs).with_result

theorem Reads.deep {p : Vm Frame α} (hp : Reads env data p) (n : Nat) :
    Leads (Explained env) (Deep data n) p (Deep data n) :=
  hp.leads (fun _ h => h.toSound) fun _ _ h => h.deep

theorem Reads.roomy {p : Vm Frame α} (hp : Reads env data p) (n : Nat) :
    Leads (Explained env) (Roomy data n) p (Roomy data n) :=
  hp.leads (fun _ h => h.toSound) fun _ _ h => h.roomy

theorem reads_readU1 : Reads env data (readU1 data) := by
  intro s hs
  by_cases hEnd : s.eval.codeLen ≤ s.eval.codePos
  · unfold Safely
    rw [readU1_end hEnd]
    exact .inl rfl
  · have hInside := hs.inside
    have hLt : s.pos < data.length := by
      unfold State.pos
      omega
    obtain ⟨b, hb⟩ := get_of_some hLt
    have hRead : readU1 data s = .ok (b, s.advance 1) :=
      (readU1_eq (Nat.lt_of_not_le hEnd)).trans (nextByte_some hb)
    exact (safely_of_ok hRead).2 ⟨_, rfl⟩

theorem reads_readU2 : Reads env data (readU2 env data) :=
  reads_readU1.bind fun _ => reads_readU1.bind fun _ => reads_pure _

theorem reads_readU4 : Reads env data (readU4 env data) :=
  reads_readU2.bind fun _ => reads_readU2.bind fun _ => reads_pure _

theorem reads_readU8 : Reads env data (readU8 env data) :=
  reads_readU4.bind fun _ => reads_readU4.bind fun _ => reads_pure _

theorem reads_lebBytes {w : Nat} {signed : Bool} {fuel i : Nat} {res : BitVec w} :
    Reads env data (lebBytes data w signed fuel i res) := by
  induction fuel generalizing i res with
  | zero => exact reads_raise rfl
  | succ fuel ih =>
    refine reads_readU1.bind fun b => ?_
    intro s hs
    exact safely_ite (fun _ => reads_pure _ s hs) fun _ => ih s hs

theorem reads_readLeb {w : Nat} {signed : Bool} : Reads env data (readLeb data w signed) :=
  fun s hs => safely_bind.2 (reads_lebBytes s hs)

theorem reads_readIa : Reads env data (readIa env data) := by
  unfold readIa
  split
  · exact reads_readU1.bind fun _ => reads_pure _
  · exact reads_readU2.bind fun _ => reads_pure _
  · exact reads_readU4.bind fun _ => reads_pure _
  · exact reads_readU8
  · exact reads_raise rfl

theorem reads_readUa : Reads env data (readUa env data) := by
  unfold readUa
  split
  · exact reads_readU1.bind fun _ => reads_pure _
  · exact reads_readU2.bind fun _ => reads_pure _
  · exact reads_readU4.bind fun _ => reads_pure _
  · exact reads_readU8
  · exact reads_raise rfl

theorem reads_jump (offs : BitVec 16) : Reads env data (jump offs) := by
  intro s hs
  refine safely_bind.2 (safely_ite (fun _ => .inl rfl) fun _ => ?_)
  exact ⟨_, rfl⟩

theorem reads_isEndOfLocExpr : Reads env data (isEndOfLocExpr data) := by
  intro s hs
  refine safely_bind.2 (safely_ite (fun _ => advances_refl s) fun hNot => ?_)
  have hInside := hs.inside
  have hLt : s.eval.base + s.eval.codePos < data.length := by omega
  obtain ⟨op, hOp⟩ := get_of_some hLt
  exact safely_bind.2 (safely_orFault.2 ⟨op, hOp, advances_refl s⟩)

variable {op : UInt8}

theorem reads_constant {p : Vm Frame Word} {type : TypeClass}
    (h : constant env data op = some (p, type)) : Reads env data p := by
  exact constant_elim h reads_readIa (fun _ => reads_readU1.bind fun _ => reads_pure _)
    (fun _ => reads_readU2.bind fun _ => reads_pure _)
    (fun _ => reads_readU4.bind fun _ => reads_pure _)
    reads_readU8 (fun _ => reads_readLeb) reads_pure

/-! ## Operations on the stack -/

variable (env data) in
/-- An operation, when there is room for four more entries. -/
def Bounded (p : Vm Frame Unit) : Prop :=
  Leads (Explained env) (Roomy data 0) p (State.Sound data)

variable {p : Vm Frame Unit}

theorem bounded_of_deep
    (h : Leads (Explained env) (Deep data 0) p (Deep data n)) : Bounded env data p :=
  h.mono (fun _ h => h.toDeep) fun _ h => h.toSound

theorem leads_checkDeep (n : Nat) :
    Leads (Explained env) (Deep data 0) (checkStack n : Vm Frame Unit) (Deep data n) :=
  (leads_checkStack n).mono (fun _ h => h) fun _ h => ⟨h.1.toSound, h.2⟩

theorem leads_checkRoomy (n : Nat) :
    Leads (Explained env) (Roomy data 0) (checkStack n : Vm Frame Unit) (Roomy data n) :=
  (leads_checkStack n).mono (fun _ h => h) fun _ h => ⟨⟨h.1.toSound, h.2⟩, h.1.room⟩

theorem leads_deepAt (hPos : 1 ≤ k) (hLe : k ≤ n) :
    Leads (Explained env) (Deep data n) (stkAt k : Vm Frame Word) (Deep data n) :=
  leads_stkAt (fun _ h => h) hPos hLe

theorem leads_deepType (hPos : 1 ≤ k) (hLe : k ≤ n) :
    Leads (Explained env) (Deep data n) (typeAt k : Vm Frame TypeClass) (Deep data n) :=
  leads_typeAt (fun _ h => h) hPos hLe

theorem leads_setBoth (hPos : 1 ≤ k) (hLe : k ≤ n) (v : Word) (t : TypeClass) :
    Leads (Explained env) (Deep data n)
      (do
        setStkAt k v
        setTypeAt k t : Vm Frame Unit) (Deep data n) :=
  (leads_setStkAt hPos hLe v).bind fun _ => leads_setTypeAt hPos hLe t

/-- The entry `k` is replaced by the entry `k + 1`, and something else is done then. -/
theorem leads_shift (hPos : 1 ≤ k) (hLe : k + 1 ≤ n)
    (hp : Leads (Explained env) (Deep data n) p (Deep data n)) :
    Leads (Explained env) (Deep data n)
      (do
        setStkAt k (← stkAt (k + 1))
        setTypeAt k (← typeAt (k + 1))
        p) (Deep data n) :=
  (leads_deepAt (Nat.succ_pos k) hLe).bind fun v => (leads_setStkAt hPos (by omega) v).bind fun _ =>
    (leads_deepType (Nat.succ_pos k) hLe).bind fun t =>
    (leads_setTypeAt hPos (by omega) t).bind fun _ => hp

/-- The end of `OP_dup`, `OP_over` and `OP_pick`. -/
theorem leads_copy (hPos : 1 ≤ k) (hLe : k ≤ n) :
    Leads (Explained env) (Roomy data n)
      (do push (← stkAt k) (← typeAt k) : Vm Frame Unit) (State.Sound data) :=
  (leads_stkAt (fun _ h => h.toDeep) hPos hLe).bind fun _ =>
    (leads_typeAt (fun _ h => h.toDeep) hPos hLe).bind fun _ => leads_push _ _

theorem bounded_moveOp (h : moveOp data op = some p) :
    Bounded env data p := by
  unfold moveOp at h
  obtain ⟨-, rfl⟩ | h := some_of_ite h
  · exact (leads_checkRoomy 1).bind fun _ => leads_copy (Nat.le_refl 1) (Nat.le_refl 1)
  obtain ⟨-, rfl⟩ | h := some_of_ite h
  · exact bounded_of_deep ((leads_checkDeep 1).bind fun _ => leads_dropTop)
  obtain ⟨-, rfl⟩ | h := some_of_ite h
  · exact (leads_checkRoomy 2).bind fun _ => leads_copy (by decide) (Nat.le_refl 2)
  obtain ⟨-, rfl⟩ | h := some_of_ite h
  · refine (reads_readU1.roomy 0).bind fun b => ?_
    exact (leads_checkRoomy (b.toNat + 1)).bind fun _ =>
      leads_copy (Nat.succ_pos _) (Nat.le_refl _)
  obtain ⟨-, rfl⟩ | h := some_of_ite h
  · refine bounded_of_deep (n := 2) ((leads_checkDeep 2).bind fun _ => ?_)
    refine (leads_deepAt (by decide) (by decide)).bind fun value => ?_
    refine (leads_deepType (by decide) (by decide)).bind fun type => ?_
    refine leads_shift (k := 1) (by decide) (by decide) ?_
    exact leads_setBoth (by decide) (by decide) _ _
  obtain ⟨-, rfl⟩ | h := some_of_ite h
  · refine bounded_of_deep (n := 3) ((leads_checkDeep 3).bind fun _ => ?_)
    refine (leads_deepAt (by decide) (by decide)).bind fun value => ?_
    refine (leads_deepType (by decide) (by decide)).bind fun type => ?_
    refine leads_shift (k := 1) (by decide) (by decide) ?_
    refine leads_shift (k := 2) (by decide) (by decide) ?_
    refine (leads_setStkAt (by decide) (by decide) _).bind fun _ => ?_
    exact leads_setTypeAt (by decide) (by decide) _
  · cases h

variable {size : Nat}

/-- Memory is read where the size is not more than the buffer holds. -/
theorem leads_readMemory (addr : Word) (hSize : size ≤ 8) :
    Leads (Explained env) P (readMemory env addr size) P := by
  intro s hs
  refine safely_bind.2
    (safely_ensure.2 ⟨hSize, safely_bind.2 (safely_orRaise.2 ⟨fun _ _ => hs, ?_⟩)⟩)
  intro f hf
  unfold Target.readMem orException at hf
  cases hRead : (env.target s.eval.stackFrame).contextReadMem addr size with
  | ok bytes =>
    rw [hRead] at hf
    cases hf
  | error n =>
    rw [hRead] at hf
    cases hf
    exact .inr (.call (.contextReadMem hRead))

/-- The entry `k` is replaced by what memory has at the topmost one. -/
theorem leads_fetch (hSize : size ≤ 8) (hPos : 1 ≤ k) (hLe : k ≤ n) {f : Word → Word}
    {t : TypeClass} :
    Leads (Explained env) (Deep data n)
      (do
        setStkAt k (f (← readMemory env (← stkAt 1) size))
        setTypeAt k t : Vm Frame Unit) (Deep data n) :=
  (leads_deepAt (Nat.le_refl 1) (hPos.trans hLe)).bind fun addr =>
    (leads_readMemory addr hSize).bind fun _ => leads_setBoth hPos hLe _ _

/-- The operand of `OP_deref_size` and `OP_xderef_size` is not more than 8. -/
def SizeFits (data : List UInt8) (n : Nat) (s : State Frame) : Prop :=
  n ≤ s.eval.stkPos → ∀ size s', readU1 data s = .ok (size, s') → size.toNat ≤ 8

/-- The size of what is read is an operand. -/
theorem leads_sized {p : UInt8 → Vm Frame Unit}
    (hp : ∀ size : UInt8, size.toNat ≤ 8 →
      Leads (Explained env) (Deep data n) (p size) (Deep data k)) :
    Leads (Explained env) (fun s => Roomy data 0 s ∧ SizeFits data n s)
      (do
        checkStack n
        let size ← readU1 data
        p size) (State.Sound data) := by
  rintro s ⟨hs, hFits⟩
  refine (leads_checkStack (P := fun t => t = s) n s rfl).bind ?_
  rintro _ _ ⟨rfl, hDeep⟩
  refine Safely.bind (reads_readU1.result hs.toSound) fun size s' hBoth => ?_
  refine (hp size (hFits hDeep size s' hBoth.2) s' ?_).mono fun _ _ h => h.toSound
  exact hBoth.1.deep ⟨hs.toSound, hDeep⟩

/-- An address is read, which fits in the buffer. -/
def AddrFits (env : Env Frame) (n : Nat) (s : State Frame) : Prop :=
  n ≤ s.eval.stkPos → env.addrSize ≤ 8

/-- The size of what is read is that of an address. -/
theorem leads_addressed
    (hp : env.addrSize ≤ 8 → Leads (Explained env) (Deep data n) p (Deep data k)) :
    Leads (Explained env) (fun s => Roomy data 0 s ∧ AddrFits env n s)
      (do
        checkStack n
        p) (State.Sound data) := by
  rintro s ⟨hs, hFits⟩
  refine (leads_checkStack (P := fun t => t = s) n s rfl).bind ?_
  rintro _ _ ⟨rfl, hDeep⟩
  exact (hp (hFits hDeep) _ ⟨hs.toSound, hDeep⟩).mono fun _ _ h => h.toSound

theorem leads_memoryOp (h : memoryOp env data op = some p) :
    Leads (Explained env) (fun s => Roomy data 0 s ∧
      ((op = Op.deref → AddrFits env 1 s) ∧ (op = Op.xderef → AddrFits env 2 s)) ∧
      (op = Op.derefSize → SizeFits data 1 s) ∧ (op = Op.xderefSize → SizeFits data 2 s)) p
      (State.Sound data) := by
  unfold memoryOp at h
  obtain ⟨hOp, rfl⟩ | h := some_of_ite h
  · refine Leads.mono (leads_addressed (k := 1) fun hAddr => ?_) (fun _ h => ⟨h.1, h.2.1.1 hOp⟩)
      fun _ h => h
    exact leads_fetch hAddr (Nat.le_refl 1) (Nat.le_refl 1)
  obtain ⟨-, rfl⟩ | h := some_of_ite h
  · refine Leads.mono (bounded_of_deep (n := 1) ((leads_checkDeep 1).bind fun _ => ?_))
      (fun _ h => h.1) fun _ h => h
    exact leads_fetch (by decide) (Nat.le_refl 1) (Nat.le_refl 1)
  obtain ⟨hOp, rfl⟩ | h := some_of_ite h
  · refine Leads.mono (leads_sized (k := 1) fun size hSize => ?_) (fun _ h => ⟨h.1, h.2.2.1 hOp⟩)
      fun _ h => h
    exact leads_fetch hSize (Nat.le_refl 1) (Nat.le_refl 1)
  obtain ⟨hOp, rfl⟩ | h := some_of_ite h
  · refine Leads.mono (leads_addressed (k := 1) fun hAddr => ?_) (fun _ h => ⟨h.1, h.2.1.2 hOp⟩)
      fun _ h => h
    refine (leads_deepAt (by decide) (by decide)).bind fun addr => ?_
    refine (leads_readMemory addr hAddr).bind fun v => ?_
    refine (leads_setStkAt (by decide) (by decide) _).bind fun _ => ?_
    exact (leads_setTypeAt (by decide) (by decide) _).bind fun _ => leads_dropTop
  obtain ⟨hOp, rfl⟩ | h := some_of_ite h
  · refine Leads.mono (leads_sized (k := 1) fun size hSize => ?_) (fun _ h => ⟨h.1, h.2.2.2 hOp⟩)
      fun _ h => h
    refine (leads_deepAt (by decide) (by decide)).bind fun addr => ?_
    refine (leads_readMemory addr hSize).bind fun v => ?_
    refine (leads_setStkAt (by decide) (by decide) _).bind fun _ => ?_
    exact (leads_setTypeAt (by decide) (by decide) _).bind fun _ => leads_dropTop
  · cases h

/-- The operations with two operands are there, and raise `ERR_INV_DWARF` only. -/
theorem arithmetic_some (m : Vm.Machine RegisterDefinition)
    (h : op ∈ [Op.and, Op.div, Op.minus, Op.mod, Op.mul, Op.or, Op.add, Op.plus, Op.shl, Op.shr,
      Op.shra, Op.xor]) :
    ∃ f, Vm.arithmetic m op = some f ∧
      ∀ a b e, f a b = .error e → e.errno = Err.invDwarf := by
  simp only [List.mem_cons, List.not_mem_nil, or_false] at h
  have hTotal (g : Word → Word → Word) :
      ∀ a b (e : Failure), Except.ok (g a b) = .error e → e.errno = Err.invDwarf :=
    fun a b e he => by cases he
  have hDivision (g : Word → Word → Word) (a b : Word) (e : Failure)
      (he : (if b = 0 then .error (invDwarf "Division by zero in location expression")
        else .ok (g a b)) = Except.error e) : e.errno = Err.invDwarf := by
    split at he <;> cases he
    rfl
  rcases h with rfl | rfl | rfl | rfl | rfl | rfl | rfl | rfl | rfl | rfl | rfl | rfl
  all_goals first | exact ⟨_, rfl, hTotal _⟩ | exact ⟨_, rfl, hDivision _⟩

theorem bounded_arithmeticOp (h : arithmeticOp env op = some p) : Bounded env data p := by
  unfold arithmeticOp at h
  cases hCompare : Vm.comparison op with
  | some f =>
    simp only [hCompare] at h
    cases h
    refine bounded_of_deep (n := 1) ((leads_checkDeep 2).bind fun _ => ?_)
    refine (leads_deepAt (by decide) (by decide)).bind fun b => ?_
    refine (leads_deepAt (by decide) (by decide)).bind fun a => leads_dropTop.bind fun _ => ?_
    exact leads_setBoth (by decide) (by decide) _ _
  | none =>
    cases hUnary : Vm.unary op with
    | some f =>
      simp only [hCompare, hUnary] at h
      cases h
      refine bounded_of_deep (n := 1) ((leads_checkDeep 1).bind fun _ => ?_)
      exact (leads_deepAt (by decide) (by decide)).bind fun a =>
        leads_setStkAt (by decide) (by decide) _
    | none =>
      simp only [hCompare, hUnary] at h
      split at h
      · rename_i hMem
        cases h
        refine bounded_of_deep (n := 1) ((leads_checkDeep 2).bind fun _ => ?_)
        refine (leads_deepAt (by decide) (by decide)).bind fun b => ?_
        refine (leads_deepAt (by decide) (by decide)).bind fun a => leads_dropTop.bind fun _ => ?_
        refine leads_get fun s hs => ?_
        obtain ⟨f, hf, hRaises⟩ := arithmetic_some (env.machine s.eval.stackFrame) hMem
        refine safely_bind.2 (safely_orFault.2 ⟨f, hf, ?_⟩)
        refine (leads_orRaise (P := Deep data 1) (fun e he => .inl (hRaises a b e he))
          (fun _ h => h)).bind (fun v => leads_setStkAt (by decide) (by decide) v) s hs
      · cases h

/-! ## Registers and locations -/

/-- A call that can fail. -/
theorem leads_call {r : Except Nat α} (h : ∀ n, r = .error n → env.Fails n) :
    Leads (Explained env) P (orRaise (orException r) : Vm Frame α) P := by
  refine leads_orRaise (fun f hf => ?_) fun _ h => h
  cases r with
  | ok a => cases hf
  | error n =>
    cases hf
    exact .inr (.call (h n rfl))

theorem leads_getRegById (id : Nat) :
    Leads (Explained env) P (getRegById env id) P := leads_call fun _ h => .getRegById h

theorem leads_readRegValue (reg : RegisterDefinition) :
    Leads (Explained env) P (readRegValue env reg) P :=
  leads_get fun s hs => leads_call (P := P) (fun _ h => .readRegValue h) s hs

theorem bounded_baseRegister (id : Nat) : Bounded env data (baseRegister env data id) :=
  (leads_getRegById id).bind fun reg => (leads_readRegValue reg).bind fun _ =>
    (reads_readLeb.roomy 0).bind fun _ => leads_push _ _

/-- The id of an `OP_GNU_variable_value` has an end. -/
def IdEnds (data : List UInt8) (s : State Frame) : Prop := 0 ∈ data.drop s.pos

theorem length_takeWhile_lt {l : List UInt8} (h : 0 ∈ l) :
    (l.takeWhile (· ≠ 0)).length < l.length := by
  induction l with
  | nil => cases h
  | cons b l ih =>
    by_cases hZero : b = 0
    · simp [hZero]
    · have hLater : 0 ∈ l := (List.mem_cons.1 h).resolve_left fun hEq => hZero hEq.symm
      have hRest := ih hLater
      simpa [List.takeWhile_cons, hZero] using hRest

theorem leads_pushOp (h : pushOp env data op = some p) :
    Leads (Explained env) (fun s => Roomy data 0 s ∧ (op = Op.gnuVariableValue → IdEnds data s)) p
      (State.Sound data) := by
  have hFirst {p : Vm Frame Unit} (hp : Bounded env data p) : Leads (Explained env)
      (fun s => Roomy data 0 s ∧ (op = Op.gnuVariableValue → IdEnds data s)) p
      (State.Sound data) := hp.mono (fun _ h => h.1) fun _ h => h
  unfold pushOp at h
  obtain ⟨-, rfl⟩ | h := some_of_ite h
  · exact hFirst (bounded_baseRegister _)
  obtain ⟨-, rfl⟩ | h := some_of_ite h
  · exact hFirst ((reads_readLeb.roomy 0).bind fun _ => bounded_baseRegister _)
  obtain ⟨-, rfl⟩ | h := some_of_ite h
  · refine hFirst ((reads_readUa.roomy 0).bind fun id => ?_)
    exact (leads_getRegById _).bind fun reg => (leads_readRegValue reg).bind fun v => leads_push _ _
  obtain ⟨-, rfl⟩ | h := some_of_ite h
  · refine hFirst (leads_get fun s hs => ?_)
    split
    · exact .inr .noFrame
    · exact leads_push _ _ s hs
  obtain ⟨-, rfl⟩ | h := some_of_ite h
  · refine hFirst (leads_get fun s hs => ?_)
    split
    · exact .inr .noObject
    · exact leads_push _ _ s hs
  obtain ⟨hOp, rfl⟩ | h := some_of_ite h
  · refine leads_get fun s hs => safely_bind.2 (safely_ensure.2 ⟨?_, ?_⟩)
    · exact length_takeWhile_lt (hs.2 hOp)
    · refine safely_bind.2 ?_
      refine Leads.bind (P := Roomy data 0) (leads_call fun _ h => .symbolValue h)
        (fun r => leads_push _ _) _ ?_
      exact Advances.roomy ⟨_, rfl⟩ hs.1
  · cases h

/-- Nothing that accesses depend on is changed. -/
theorem State.Sound.same (h : s.Sound data) (hEval : s'.eval = s.eval)
    (hPending : s'.pending = s.pending) : s'.Sound data :=
  ⟨hEval ▸ h.fits, by rw [hEval]; exact h.inside, by rw [hEval, hPending]; exact h.pending⟩

theorem leads_registerLocation (id : Nat) (msg : String) :
    Leads (Explained env) (State.Sound data) (registerLocation env data id msg)
      (State.Sound data) := by
  have hEnd : Leads (Explained env) (State.Sound data) (isEndOfLocExpr data) (State.Sound data) :=
    reads_isEndOfLocExpr.leads (fun _ h => h) fun _ _ h => h.sound
  refine hEnd.bind fun isEnd => ?_
  refine leads_ite (fun _ => leads_raise (.inl rfl)) fun _ => ?_
  exact (leads_getRegById id).bind fun reg => leads_modify fun s hs => hs.same rfl rfl

theorem leads_addPiece :
    Leads (Explained env) (State.Sound data) (addPiece : Vm Frame Unit) (State.Sound data) := by
  refine leads_get fun s hs => ?_
  split
  · exact { hs with fits := { hs.fits with } }
  · exact { hs with fits := { hs.fits with } }
  · refine safely_ite (fun _ => ?_) fun hSome => ?_
    · exact { hs with fits := { hs.fits with } }
    · have hDeep : Deep data 1 s := ⟨hs, Nat.one_le_iff_ne_zero.2 hSome⟩
      refine Leads.bind (leads_deepAt (Nat.le_refl 1) (Nat.le_refl 1)) (fun addr => ?_) s hDeep
      refine leads_dropTop.bind fun _ => leads_modify fun t ht => ?_
      exact { ht with fits := { ht.fits with } }

theorem leads_modifyPiece (f : LocationPiece → LocationPiece) :
    Leads (Explained env) (State.Sound data) (modifyPiece f : Vm Frame Unit)
      (State.Sound data) :=
  leads_modify fun _ hs =>
    { hs with fits := { hs.fits with } }

theorem Reads.sound {p : Vm Frame α} (hp : Reads env data p) :
    Leads (Explained env) (State.Sound data) p (State.Sound data) :=
  hp.leads (fun _ h => h) fun _ _ h => h.sound

/-- The end of `OP_implicit_value` and `OP_stack_value`. -/
theorem leads_lastInstruction (msg : String) :
    Leads (Explained env) (State.Sound data)
      (do if ¬ (← isEndOfLocExpr data) then raise (invDwarf msg) : Vm Frame Unit)
      (State.Sound data) :=
  reads_isEndOfLocExpr.sound.bind fun _ =>
    leads_ite (fun _ => leads_raise (.inl rfl)) fun _ => leads_pure fun _ h => h

theorem bounded_locationOp (h : locationOp env data op = some p) : Bounded env data p := by
  have hFirst {p : Vm Frame Unit}
      (hp : Leads (Explained env) (State.Sound data) p (State.Sound data)) :
      Bounded env data p := hp.mono (fun _ h => h.toSound) fun _ h => h
  unfold locationOp at h
  obtain ⟨-, rfl⟩ | h := some_of_ite h
  · exact hFirst (leads_registerLocation _ _)
  obtain ⟨-, rfl⟩ | h := some_of_ite h
  · exact hFirst (reads_readLeb.sound.bind fun _ => leads_registerLocation _ _)
  obtain ⟨-, rfl⟩ | h := some_of_ite h
  · exact hFirst (reads_readUa.sound.bind fun _ => leads_registerLocation _ _)
  obtain ⟨-, rfl⟩ | h := some_of_ite h
  · refine hFirst (leads_addPiece.bind fun _ => ?_)
    exact reads_readLeb.sound.bind fun _ => leads_modifyPiece _
  obtain ⟨-, rfl⟩ | h := some_of_ite h
  · refine hFirst (leads_addPiece.bind fun _ => ?_)
    refine reads_readLeb.sound.bind fun _ => (leads_modifyPiece _).bind fun _ => ?_
    exact reads_readLeb.sound.bind fun _ => leads_modifyPiece _
  obtain ⟨-, rfl⟩ | h := some_of_ite h
  · refine hFirst (reads_readLeb.sound.bind fun size => leads_get fun s hs => ?_)
    refine safely_ite (fun _ => .inl rfl) fun hNot => ?_
    have hInside := hs.inside
    refine safely_bind.2 (safely_ensure.2 ⟨by omega, ?_⟩)
    refine safely_bind.2 (leads_lastInstruction _ _ ?_)
    exact { hs with fits := { hs.fits with } }
  obtain ⟨-, rfl⟩ | h := some_of_ite h
  · refine Leads.mono (P := Deep data 0) ?_ (fun _ h => h.toDeep) fun _ h => h
    refine (leads_checkDeep 1).bind fun _ => ?_
    refine (leads_deepAt (Nat.le_refl 1) (Nat.le_refl 1)).bind fun n =>
      leads_dropTop.bind fun _ => ?_
    refine Leads.bind (leads_modify fun s hs => ?_) fun _ => leads_lastInstruction _
    exact hs.toSound.same rfl rfl
  · cases h

/-! ## Base types -/

/-- What `OP_GNU_deref_type` reads is not more than 8 bytes. -/
def TypeFits (data : List UInt8) (s : State Frame) : Prop :=
  1 ≤ s.eval.stkPos → ∀ mem s₁ fund s₂ size s₃, readU8leb128 data s = .ok (mem, s₁) →
    readU4leb128 data s₁ = .ok (fund, s₂) → readU4leb128 data s₂ = .ok (size, s₃) →
    (isUnsigned fund.toNat = true ∨ fund.toNat = 0x02 ∨ isSigned fund.toNat = true) →
    min mem.toNat size.toNat ≤ 8

variable {frame : Frame}

theorem convert_errno {fund size : Nat} {v : Word}
    (h : convert env frame fund size v = .error f) : f.errno = Err.invDwarf := by
  unfold convert at h
  split at h
  · cases h
  · split at h
    · cases h
    · split at h
      · cases h
      · cases h
        rfl

theorem leads_typedOp (h : typedOp env data op = some p) :
    Leads (Explained env) (fun s => Roomy data 0 s ∧ (op = Op.gnuDerefType → TypeFits data s)) p
      (State.Sound data) := by
  have hFirst {p : Vm Frame Unit} (hp : Bounded env data p) : Leads (Explained env)
      (fun s => Roomy data 0 s ∧ (op = Op.gnuDerefType → TypeFits data s)) p
      (State.Sound data) := hp.mono (fun _ h => h.1) fun _ h => h
  unfold typedOp at h
  obtain ⟨-, rfl⟩ | h := some_of_ite h
  · exact hFirst (leads_raise (.inl rfl))
  obtain ⟨-, rfl⟩ | h := some_of_ite h
  · exact hFirst (leads_raise (.inl rfl))
  obtain ⟨hOp, rfl⟩ | h := some_of_ite h
  · rintro s ⟨hs, hFits⟩
    refine (leads_checkStack (P := fun t => t = s) 1 s rfl).bind ?_
    rintro _ _ ⟨rfl, hDeep⟩
    have hFits := hFits hOp hDeep
    refine Safely.bind (reads_readLeb.result hs.toSound) ?_
    rintro mem s₁ ⟨hFirst, hMem⟩
    refine Safely.bind (reads_readLeb.result (hFirst.sound hs.toSound)) ?_
    rintro fund s₂ ⟨hSecond, hFund⟩
    refine Safely.bind (reads_readLeb.result (hSecond.sound (hFirst.sound hs.toSound))) ?_
    rintro size s₃ ⟨hThird, hSize⟩
    have hMin := hFits mem s₁ fund s₂ size s₃ hMem hFund hSize
    have hDeep : Deep data 1 s₃ := hThird.deep (hSecond.deep (hFirst.deep ⟨hs.toSound, hDeep⟩))
    refine Safely.mono (leads_get (P := Deep data 1) (R := Deep data 1) (fun t ht => ?_) s₃ hDeep)
      fun _ _ h => h.toSound
    refine leads_ite (P := Deep data 1)
      (fun hUnsigned => leads_fetch (hMin (.inl hUnsigned)) (by decide) (by decide))
      (fun _ => leads_ite (fun hBool => ?_) fun _ => leads_ite (fun hSigned => ?_) fun _ =>
        leads_raise (.inl rfl)) t ht
    · exact leads_fetch (hMin (.inr (.inl hBool))) (Nat.le_refl 1) (Nat.le_refl 1)
    · exact leads_fetch (hMin (.inr (.inr hSigned))) (Nat.le_refl 1) (Nat.le_refl 1)
  obtain ⟨-, rfl⟩ | h := some_of_ite h
  · refine hFirst (bounded_of_deep (n := 1) ((leads_checkDeep 1).bind fun _ => ?_))
    refine (reads_readLeb.deep 1).bind fun fund => (reads_readLeb.deep 1).bind fun size => ?_
    refine leads_get fun s hs => ?_
    refine Leads.bind (leads_deepAt (by decide) (by decide)) (fun v => ?_) s hs
    refine Leads.bind (leads_orRaise (fun e he => .inl (convert_errno he)) fun _ h => h) fun r => ?_
    · exact leads_setBoth (by decide) (by decide) _ _
  · cases h

/-! ## Control -/

theorem leads_enterExpression (hP : ∀ s, P s → s.Sound data) :
    Leads (Explained env) P (enterExpression : Vm Frame Unit) (State.Sound data) :=
  leads_get fun s hs => safely_ite (fun _ => .inl rfl) fun _ => hP s hs

/-- The cases of a switch end before `endPos`, which is in the code. -/
theorem leads_switchCases (n : Word) (endPos fuel : Nat) :
    Leads (Explained env) (fun s => s.Sound data ∧ s.eval.base + endPos ≤ data.length)
      (switchCases env data n endPos fuel) (State.Sound data) := by
  have hReads {α : Type} {p : Vm Frame α} (hp : Reads env data p) : Leads (Explained env)
      (fun s => s.Sound data ∧ s.eval.base + endPos ≤ data.length) p
      (fun s => s.Sound data ∧ s.eval.base + endPos ≤ data.length) := by
    refine hp.leads (fun _ h => h.1) ?_
    rintro s _ ⟨pos, rfl⟩ h
    exact ⟨Advances.sound ⟨pos, rfl⟩ h.1, h.2⟩
  induction fuel with
  | zero => exact leads_raise (.inl rfl)
  | succ fuel ih =>
    refine (hReads reads_readU2).bind fun size => leads_get fun t ht => ?_
    refine safely_ite (fun _ => .inl rfl) fun hEnd => ?_
    refine safely_ite (fun _ => .inr .unavailable) fun _ => ?_
    refine Leads.bind (hReads reads_readLeb) (fun addr => ?_) t ht
    refine (hReads reads_readLeb).bind fun _ => leads_ite (fun _ => ?_) fun _ => ?_
    · refine Leads.bind (Q := State.Sound data) (leads_modify fun s hs => ?_) fun _ =>
        leads_enterExpression fun _ h => h
      have hInside := hs.1.inside
      refine ⟨⟨hs.1.fits.stk, hs.1.fits.typeStk, hs.1.fits.le⟩, ?_, hInside, hs.1.pending⟩
      show s.eval.base + (t.eval.codePos + size.toNat) ≤ _
      omega
    · refine Leads.bind (leads_modify fun s hs => ?_) fun _ => ih
      exact ⟨Advances.sound ⟨_, rfl⟩ hs.1, hs.2⟩

/-- The expression of an `OP_GNU_entry_value` ends in the code. -/
def EntryFits (data : List UInt8) (s : State Frame) : Prop :=
  ∀ size s', readU4leb128 data s = .ok (size, s') → s'.pos + size.toNat ≤ data.length

theorem leads_offsetSettled :
    Leads (Explained env) (Deep data 0) (offsetSettled data : Vm Frame Unit)
      (State.Sound data) := by
  refine leads_get fun s hs => safely_ite (fun _ => ?_) fun _ => ?_
  · refine Leads.bind (reads_readLeb.sound) (fun offs => ?_) s hs.toSound
    refine Leads.bind (Q := State.Sound data) (leads_modify fun t ht => ?_) fun _ =>
      leads_ite (fun _ => leads_raise (.inl rfl)) fun _ => leads_pure fun _ h => h
    exact { ht with fits := { ht.fits with } }
  · refine Leads.bind (leads_checkDeep 1) (fun _ => ?_) s hs
    refine (leads_deepAt (by decide) (by decide)).bind fun v => ?_
    refine (reads_readLeb.deep 1).bind fun n => ?_
    refine (leads_setStkAt (by decide) (by decide) _).bind fun _ => leads_modify fun t ht => ?_
    exact ht.toSound.same rfl rfl

theorem leads_controlOp (h : controlOp env data op = some p) :
    Leads (Explained env) (fun s => Roomy data 0 s ∧ (op = Op.gnuEntryValue → EntryFits data s)) p
      (State.Sound data) := by
  have hFirst {p : Vm Frame Unit} (hp : Bounded env data p) : Leads (Explained env)
      (fun s => Roomy data 0 s ∧ (op = Op.gnuEntryValue → EntryFits data s)) p
      (State.Sound data) := hp.mono (fun _ h => h.1) fun _ h => h
  -- each operation checks the stack first, so that only its reads of the code are left
  unfold controlOp at h
  obtain ⟨-, rfl⟩ | h := some_of_ite h
  · refine hFirst (bounded_of_deep (n := 0) ((leads_checkDeep 1).bind fun _ => ?_))
    refine (reads_readU2.deep 1).bind fun offs => ?_
    refine (leads_deepAt (by decide) (by decide)).bind fun v => ?_
    refine leads_ite (fun _ => ?_) fun _ => leads_dropTop
    exact ((reads_jump offs).deep 1).bind fun _ => leads_dropTop
  obtain ⟨-, rfl⟩ | h := some_of_ite h
  · refine hFirst (bounded_of_deep (n := 0) ?_)
    exact (reads_readU2.deep 0).bind fun offs => (reads_jump offs).deep 0
  obtain ⟨-, rfl⟩ | h := some_of_ite h
  · refine hFirst (Leads.mono (P := Deep data 0) ?_ (fun _ h => h.toDeep) fun _ h => h)
    refine (leads_checkDeep 1).bind fun _ => ?_
    refine (leads_deepAt (by decide) (by decide)).bind fun n => leads_dropTop.bind fun _ => ?_
    refine (reads_readU2.deep 0).bind fun size => leads_get fun s hs => ?_
    refine safely_ite (fun _ => .inl rfl) fun hEnd => ?_
    refine leads_switchCases n _ _ s ⟨hs.toSound, ?_⟩
    have hInside := hs.inside
    omega
  obtain ⟨-, rfl⟩ | h := some_of_ite h
  · refine hFirst (Leads.mono (P := Deep data 0) (Q := State.Sound data) ?_ (fun _ h => h.toDeep)
      fun _ h => h)
    refine leads_get fun s hs => ?_
    have hRest : Leads (Explained env) (Deep data 0) (offsetSettled data)
        (State.Sound data) := leads_offsetSettled
    refine safely_ite (fun _ => ?_) fun _ => hRest s hs
    refine Leads.bind leads_addPiece (fun _ => ?_) s hs.toSound
    exact hRest.mono (fun _ h => ⟨h, Nat.zero_le _⟩) fun _ h => h
  obtain ⟨hOp, rfl⟩ | h := some_of_ite h
  · rintro s ⟨hs, hFits⟩
    refine Safely.bind (reads_readLeb.result hs.toSound) ?_
    rintro size s' ⟨hAdvances, hRead⟩
    have hEnd := hFits hOp size s' hRead
    have hRoomy := hAdvances.roomy hs
    refine safely_bind.2 ?_
    refine Leads.bind (P := fun t => t = s') (leads_call fun _ h => .prevFrame h)
      (fun frame => ?_) s' rfl
    rintro _ rfl
    refine safely_bind.2 (leads_enterExpression (P := State.Sound data) (fun _ h => h) _ ?_)
    refine ⟨⟨rfl, rfl, Nat.le_refl 0⟩, hEnd, ?_⟩
    exact ⟨⟨hRoomy.fits, hRoomy.room, hRoomy.inside⟩, hRoomy.pending⟩
  obtain ⟨-, rfl⟩ | h := some_of_ite h
  · exact hFirst (leads_pure fun _ h => h.toSound)
  · cases h

/-! ## Runs -/

/-- The sizes fit with which an operation works that does not check them. -/
structure OperandsFit (env : Env Frame) (data : List UInt8) (op : UInt8) (s : State Frame) :
    Prop where
  deref      : op = Op.deref → AddrFits env 1 s
  xderef     : op = Op.xderef → AddrFits env 2 s
  derefSize  : op = Op.derefSize → SizeFits data 1 s
  xderefSize : op = Op.xderefSize → SizeFits data 2 s
  derefType  : op = Op.gnuDerefType → TypeFits data s
  variableValue : op = Op.gnuVariableValue → IdEnds data s
  entryValue : op = Op.gnuEntryValue → EntryFits data s

/-- The first of some families of operations that has the operation. -/
theorem leads_or {Q : State Frame → Prop} {o o' : Option (Vm Frame Unit)} {other : Vm Frame Unit}
    (h : ∀ p, o = some p → Leads (Explained env) P p Q)
    (h' : Leads (Explained env) P (o'.getD other) Q) :
    Leads (Explained env) P ((o.or o').getD other) Q := by
  cases o with
  | some p => exact h p rfl
  | none => exact h'

theorem leads_execute (op : UInt8) :
    Leads (Explained env) (fun s => Roomy data 0 s ∧ OperandsFit env data op s)
      (execute env data op)
      (State.Sound data) := by
  have hFirst {p : Vm Frame Unit} (hp : Bounded env data p) : Leads (Explained env)
      (fun s => Roomy data 0 s ∧ OperandsFit env data op s) p (State.Sound data) :=
    hp.mono (fun _ h => h.1) fun _ h => h
  unfold execute
  split
  · rename_i read type hConstant
    exact hFirst (((reads_constant hConstant).roomy 0).bind fun v => leads_push v type)
  · refine leads_ite (fun _ => hFirst (bounded_of_deep (n := 1) ?_)) fun _ => ?_
    · refine (leads_checkDeep 1).bind fun _ => ?_
      refine (leads_deepAt (by decide) (by decide)).bind fun v => ?_
      exact (reads_readLeb.deep 1).bind fun n => leads_setStkAt (by decide) (by decide) _
    · refine leads_or (fun p hOp => hFirst (bounded_moveOp hOp)) ?_
      refine leads_or (fun p hOp => (leads_memoryOp hOp).mono
        (fun _ h => ⟨h.1, ⟨h.2.deref, h.2.xderef⟩, h.2.derefSize, h.2.xderefSize⟩) fun _ h => h) ?_
      refine leads_or (fun p hOp => hFirst (bounded_arithmeticOp hOp)) ?_
      refine leads_or (fun p hOp => (leads_pushOp hOp).mono
        (fun _ h => ⟨h.1, h.2.variableValue⟩) fun _ h => h) ?_
      refine leads_or (fun p hOp => hFirst (bounded_locationOp hOp)) ?_
      refine leads_or (fun p hOp => (leads_typedOp hOp).mono
        (fun _ h => ⟨h.1, h.2.derefType⟩) fun _ h => h) ?_
      cases hControl : controlOp env data op with
      | some p =>
        exact (leads_controlOp hControl).mono (fun _ h => ⟨h.1, h.2.entryValue⟩) fun _ h => h
      | none => exact hFirst (leads_raise (.inr (.unsupported op)))

theorem leads_lastPiece :
    Leads (Explained env) (State.Sound data) (lastPiece : Vm Frame Unit) (State.Sound data) :=
  leads_get fun s hs => safely_ite (fun _ => leads_addPiece s hs) fun _ => hs

theorem explained_call {r : Except Nat α}
    (hFails : ∀ n, r = .error n → env.Fails n) (h : orException r = .error f) :
    Explained env f := by
  cases r with
  | ok a => cases h
  | error n =>
    cases h
    exact .inr (.call (hFails n rfl))

variable {big : Bool}

theorem explained_pieceBuffer {p : LocationPiece}
    (h : pieceBuffer env frame big p = .error f) : Explained env f := by
  unfold pieceBuffer at h
  by_cases hAway : p.optimizedAway = true
  · rw [if_pos hAway] at h
    cases h
    exact .inr .optimizedAway
  rw [if_neg hAway] at h
  by_cases hImplicit : p.implicitPointer ≠ 0
  · simp only [hImplicit, ne_eq, not_false_eq_true, ↓reduceIte] at h
    cases h
    exact .inr .implicitPointer
  have hDirect : p.implicitPointer = 0 := by simpa using hImplicit
  simp only [hDirect, ne_eq, not_true_eq_false, ↓reduceIte] at h
  cases hReg : p.reg with
  | some reg =>
    simp only [hReg] at h
    cases hRead : orException (env.readReg frame reg) with
    | ok bytes =>
      rw [hRead] at h
      cases h
    | error f' =>
      rw [hRead] at h
      cases h
      exact explained_call (fun _ h => .readReg h) hRead
  | none =>
    cases hValue : p.value with
    | some value =>
      simp only [hReg, hValue] at h
      cases h
    | none =>
      simp only [hReg, hValue] at h
      cases hRead : orException ((env.target frame).contextReadMem p.addr p.pieceSize) with
      | ok bytes =>
        rw [hRead] at h
        cases h
      | error f' =>
        rw [hRead] at h
        cases h
        exact explained_call (fun _ h => .contextReadMem h) hRead

theorem explained_mapM_bitsOf {pieces : List LocationPiece}
    (h : pieces.mapM (bitsOf env frame big) = .error f) : Explained env f := by
  induction pieces with
  | nil => cases h
  | cons p pieces ih =>
    rw [List.mapM_cons] at h
    rcases Fallible.bind_eq_error h with hFirst | ⟨bs, -, h⟩
    · unfold bitsOf at hFirst
      rcases Fallible.bind_eq_error hFirst with hBuffer | ⟨bytes, -, h⟩
      · exact explained_pieceBuffer hBuffer
      · cases h
    · rcases Fallible.bind_eq_error h with hRest | ⟨bss, -, h⟩
      · exact ih hRest
      · cases h

theorem explained_readLocationPieces {pieces : List LocationPiece}
    (h : readLocationPieces env frame big pieces = .error f) : Explained env f := by
  unfold readLocationPieces at h
  split at h
  · exact .inr (.overrun h)
  · rcases Fallible.bind_eq_error h with hBits | ⟨bs, -, h⟩
    · exact explained_mapM_bitsOf hBits
    · cases h

theorem leads_entryResult :
    Leads (Explained env) (State.Sound data) (entryResult env) (State.Sound data) := by
  refine leads_get fun s hs => safely_ite (fun _ => ?_) fun _ => safely_ite (fun hOne => ?_)
    fun _ => .inl rfl
  · refine Leads.bind (leads_orRaise (P := State.Sound data)
      (fun _ h => explained_readLocationPieces h) fun _ h => h) (fun bytes => ?_) s hs
    exact leads_ite (fun _ => leads_raise (.inl rfl)) fun _ => leads_pure fun _ h => h
  · refine Leads.bind (P := Deep data 1) (leads_deepAt (by decide) (by decide)) (fun v => ?_) s
      ⟨hs, hOne.ge⟩
    exact (leads_deepType (by decide) (by decide)).bind fun t => leads_pure fun _ h => h.toSound

/-- The end of an `OP_GNU_entry_value`. -/
theorem leads_leaveEntry {saved : Eval Frame} {pending : List (Pending Frame)}
    (h : (saved.Fits ∧ saved.stkPos < saved.stkMax ∧ saved.base + saved.codeLen ≤ data.length) ∧
      PendingFits data saved.base pending) :
    Leads (Explained env) (State.Sound data) (leaveEntry env saved size pending)
      (State.Sound data) := by
  refine leads_lastPiece.bind fun _ => leads_entryResult.bind fun r => ?_
  refine Leads.bind (Q := Roomy data 0) (leads_modify fun s hs => ?_) fun _ =>
    (leads_push _ _).bind fun _ => leads_modify fun s hs => Advances.sound ⟨_, rfl⟩ hs
  exact ⟨⟨⟨h.1.1, h.1.2.2, h.2⟩, Nat.zero_le _⟩, h.1.2.1⟩

variable (env) in
theorem leads_evaluateStep :
    Leads (Explained env) (fun s => s.Sound data ∧ ∀ op, s.eval.codePos < s.eval.codeLen →
      data[s.pos]? = some op → OperandsFit env data op s.fetched) (evaluateStep env data)
      (State.Sound data) := by
  rintro s ⟨hs, hFits⟩
  by_cases hLt : s.eval.codePos < s.eval.codeLen
  · have hInside := hs.inside
    obtain ⟨op, hOp⟩ := get_of_some (l := data) (i := s.pos) (by unfold State.pos; omega)
    have hShows := (shows_of_fits hs.fits).fetched
    have hRoomy : Roomy data 0 s.fetched := by
      refine ⟨⟨⟨hShows.1.fits, ?_, ?_⟩, Nat.zero_le _⟩, hShows.2⟩
      · have hEval : s.fetched.eval.base = s.eval.base ∧
          s.fetched.eval.codeLen = s.eval.codeLen := by
          unfold State.fetched Eval.reserve
          split <;> exact ⟨rfl, rfl⟩
        rw [hEval.1, hEval.2]
        exact hs.inside
      · have hEval : s.fetched.eval.base = s.eval.base := by
          unfold State.fetched Eval.reserve
          split <;> rfl
        rw [hEval]
        exact hs.pending
    unfold Safely
    rw [evaluateStep_fetched hLt hOp]
    exact safely_bind.2 (leads_execute op s.fetched ⟨hRoomy, hFits op hLt hOp⟩)
  · refine safely_bind.2 (safely_ite (fun h => absurd h hLt) fun _ => ?_)
    cases hPending : s.pending with
    | nil =>
      simp only
      exact Leads.bind leads_lastPiece (fun _ => leads_pure fun _ h => h) s hs
    | cons frame pending =>
      have hOuter := hs.pending
      rw [hPending] at hOuter
      cases frame with
      | switchBody endPos codeLenOrg =>
        simp only
        exact ⟨⟨hs.fits.stk, hs.fits.typeStk, hs.fits.le⟩, hOuter.1, hOuter.2⟩
      | entryValue saved size =>
        simp only
        exact Leads.bind (leads_leaveEntry hOuter) (fun _ => leads_pure fun _ h => h) s hs

variable (env data) in
/-- The operands of the operation that is executed in the next step fit. -/
def Status.OperandsFit : Status Frame → Prop
  | .running s => ∀ op, s.eval.codePos < s.eval.codeLen → data[s.pos]? = some op →
    VmEval.OperandsFit env data op s.fetched
  | _ => True

variable (env data) in
/-- Nothing has gone out of bounds, and what has been raised has a reason. -/
def Status.InBounds : Status Frame → Prop
  | .running s => s.Sound data
  | .finished s => s.Sound data
  | .raised f => Explained env f

theorem inBounds_step {status : Status Frame} (h : status.InBounds env data)
    (hFits : status.OperandsFit env data) :
    ∃ status', step env data status () = some status' ∧ status'.InBounds env data := by
  cases status with
  | running s =>
    have hStep := leads_evaluateStep env s ⟨h, hFits⟩
    unfold Safely at hStep
    unfold step
    dsimp only
    split at hStep
    · rename_i done s' hRun
      cases done with
      | false => exact ⟨.running s', by rw [hRun], hStep⟩
      | true => exact ⟨.finished s', by rw [hRun], hStep⟩
    · rename_i f hRun
      exact ⟨.raised f, by rw [hRun], hStep⟩
    · exact hStep.elim
  | finished s => exact ⟨_, rfl, h⟩
  | raised f => exact ⟨_, rfl, h⟩

end

/-- The other operations check their operands. -/
theorem operandsFit_of_not_mem {env : Env Frame} {data : List UInt8} {op : UInt8}
    {s : State Frame} (h : op ∉ [Op.deref, Op.xderef, Op.derefSize, Op.xderefSize, Op.gnuDerefType,
      Op.gnuVariableValue, Op.gnuEntryValue]) : OperandsFit env data op s := by
  simp only [List.mem_cons, List.not_mem_nil, or_false, not_or] at h
  exact ⟨fun hOp => absurd hOp h.1, fun hOp => absurd hOp h.2.1, fun hOp => absurd hOp h.2.2.1,
    fun hOp => absurd hOp h.2.2.2.1, fun hOp => absurd hOp h.2.2.2.2.1,
    fun hOp => absurd hOp h.2.2.2.2.2.1, fun hOp => absurd hOp h.2.2.2.2.2.2⟩

end TcfAgent.VmEval
