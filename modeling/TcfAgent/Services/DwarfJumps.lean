import TcfAgent.Services.DwarfTransform
import Mathlib.Logic.Relation

/-!
# Branches in transformed DWARF expressions

`adjust_jumps` of `services/dwarfecomp.c` against `OP_bra` and `OP_skip` of
`evaluate_expression`, which continue behind the branch and its operand, by the operand.
The branch adds up the changes of size of the operations that begin between the *opcode* of
the branch and the opcode plus the offset. It continues three bytes further on, so the
operations in the last three bytes before the target are left out (forward), those in the
last two are counted although they are not jumped over (backward), and a branch to one of
the first three bytes counts nothing, the limit having wrapped around.

Main results:

* `sizes_path`      — the changes of size that are recorded add up to how far the code has moved;
* `foldl_adjustJump_at` — the operand a branch is left with;
* `branch_iff`      — a branch finds its target exactly if what it left out or counted too
  many has, together, kept its size, and the distance fits in 16 bits.
-/

namespace TcfAgent.DwarfTransform

open TcfAgent.Lib TcfAgent.Dwarf

/-- Where `evaluate_expression` continues after the branch at `pos`; `none` is an
exception. -/
def branchTo (big : Bool) (code : List UInt8) (pos : Nat) : Option Nat :=
  match code[pos + 1]?, code[pos + 2]? with
  | some x0, some x1 =>
    let target := (pos : Int) + 3 + i2 (readUint big [x0, x1])
    if target < 0 ∨ code.length < target then none else some target.toNat
  | _, _ => none

section

variable {Obj Val : Type} (env : Env Obj Val) (rec : Rec Obj) (info : ExprInfo Obj)

/-- One round of the loop of `add_expression`. -/
def Round (s s' : LoopState) : Prop :=
  s.exprPos < info.exprSize ∧ addOp env rec info s = .ok s'

/-- The loop of `add_expression` gets to `s`: `s.exprPos` is a boundary between operations of
the source, and the size of `s.code` is where the operation there goes. -/
def Boundary (range : Range) (s : LoopState) : Prop :=
  Relation.ReflTransGen (Round env rec info) { range } s

/-- The first boundary at or after `first`. -/
def FirstFrom (range : Range) (first : Nat) (w : LoopState) : Prop :=
  Boundary env rec info range w ∧ first ≤ w.exprPos ∧
    ∀ s, Boundary env rec info range s → first ≤ s.exprPos → w.exprPos ≤ s.exprPos

/-- The operations between two boundaries have, together, kept their size, up to what 16
bits can tell. -/
def SameSize (s t : LoopState) : Prop :=
  ((env.size t.code : Int) - env.size s.code - (t.exprPos - s.exprPos)) % 2 ^ 16 = 0

end

/-- The first operation that a branch takes for one beyond its target (forward), or not for
one before it (backward). -/
def firstLeftOut (srcPos target : Nat) (offs : Int) : Nat :=
  if offs > 0 then target - 3 else if target < 3 then srcPos else target - 2

/-! ## The operands of the branches -/

theorem i2_u2 (n : Int) : i2 (u2 n) = i2 n := by
  have : ((n % 0x10000).toNat : Int) = n % 0x10000 := Int.toNat_of_nonneg (by omega)
  unfold i2 u2
  rw [this]
  exact Int.emod_bmod n 0x10000

theorem i2_sub (n : Int) : (n - i2 n) % 2 ^ 16 = 0 :=
  Int.emod_eq_zero_of_dvd (Int.dvd_self_sub_bmod (x := n) (m := 0x10000))

theorem i2_bounds (n : Int) : -2 ^ 15 ≤ i2 n ∧ i2 n < 2 ^ 15 :=
  ⟨Int.le_bmod (x := n) (m := 0x10000) (by decide),
    Int.bmod_lt (x := n) (m := 0x10000) (by decide)⟩

theorem i2_eq_iff {n m : Int} : i2 n = m ↔ (-2 ^ 15 ≤ m ∧ m < 2 ^ 15) ∧ (m - n) % 2 ^ 16 = 0 := by
  have hSub := i2_sub n
  have hBounds := i2_bounds n
  omega

theorem u2_lt (n : Int) : u2 n < 0x10000 := by
  unfold u2
  omega

section

variable {Obj Val : Type} {env : Env Obj Val} {rec : Rec Obj} {info : ExprInfo Obj}

/-- What the loop keeps: the recorded branches are where the records say, no two of them at
one place. -/
structure LoopInv (env : Env Obj Val) (s : LoopState) : Prop where
  shape    : s.code.Shape env.bigEndian
  branches : ∀ i ∈ s.jumps, opCase i.op = .branch → ∃ x : List UInt8, x.length = 2 ∧
    s.code.At env.bigEndian i.dstPos i.op x ∧ i2 (readUint env.bigEndian x) = i.jumpOffs
  distinct : s.jumps.Pairwise fun i j =>
    opCase i.op = .branch → opCase j.op = .branch → i.dstPos ≠ j.dstPos

theorem loopInv_init (range : Range) : LoopInv env { range } :=
  ⟨trivial, fun _ hi => absurd hi List.not_mem_nil, .nil⟩

variable {i : JumpInfo}

/-- A branch leaves one record, of its offset; another operation at most one, of its change
of size. -/
theorem mem_jumpInfo {op : UInt8} {offs : Int} {srcPos srcEnd dstPos dstEnd : Nat}
    (h : i ∈ jumpInfo op offs srcPos srcEnd dstPos dstEnd) :
    i.op = op ∧ i.srcPos = srcPos ∧ i.dstPos = dstPos ∧
      (opCase op = .branch → i.jumpOffs = offs ∧ i.delta = 0) := by
  unfold jumpInfo at h
  split_ifs at h with hBranch
  · obtain rfl := List.mem_singleton.mp h
    exact ⟨rfl, rfl, rfl, fun _ => ⟨rfl, rfl⟩⟩
  · obtain rfl := List.mem_singleton.mp h
    exact ⟨rfl, rfl, rfl, fun h => absurd h hBranch⟩
  · cases h

theorem jumpInfo_pairwise {R : JumpInfo → JumpInfo → Prop} (op : UInt8) (offs : Int)
    (srcPos srcEnd dstPos dstEnd : Nat) :
    (jumpInfo op offs srcPos srcEnd dstPos dstEnd).Pairwise R := by
  unfold jumpInfo
  split_ifs <;> simp

theorem loopInv_round (hRec : RecShape env rec) {s s' : LoopState} (hInv : LoopInv env s)
    (hRound : Round env rec info s s') : LoopInv env s' := by
  rcases addOp_spec hRec hRound.2 with rfl | ⟨op, offs, code, -, hEmits, hCode, hJumps, hBranch⟩
  · exact hInv
  · refine ⟨?_, ?_, ?_⟩
    · rw [hCode, Code.shape_append]
      exact ⟨hInv.shape, hEmits.2⟩
    · intro i hi hi'
      rw [hCode]
      rw [hJumps, List.mem_append] at hi
      rcases hi with hi | hi
      · obtain ⟨rfl, -, hDst, hOffs⟩ := mem_jumpInfo hi
        obtain ⟨-, -, -, operand, hLength, rfl, hOperand⟩ := hBranch hi'
        exact ⟨operand, hLength, ⟨s.code, .nil, rfl, hDst.symm⟩, hOperand.trans (hOffs hi').1.symm⟩
      · obtain ⟨x, hLength, hAt, hx⟩ := hInv.branches i hi hi'
        exact ⟨x, hLength, hAt.append code, hx⟩
    · rw [hJumps, List.pairwise_append]
      refine ⟨jumpInfo_pairwise .., hInv.distinct, fun i hi j hj hi' hj' => ?_⟩
      obtain ⟨-, -, hDst, -⟩ := mem_jumpInfo hi
      obtain ⟨x, -, hAt, -⟩ := hInv.branches j hj hj'
      have := hAt.lt
      unfold Env.size at hDst
      omega

theorem loopInv_boundary (hRec : RecShape env rec) {range : Range} {s : LoopState}
    (h : Boundary env rec info range s) : LoopInv env s := by
  induction h with
  | refl => exact loopInv_init range
  | tail _ hRound ih => exact loopInv_round hRec ih hRound

/-- The loop ends at a boundary at which the expression is over. -/
theorem addLoop_boundary {range : Range} {fuel : Nat} {s e : LoopState}
    (hs : Boundary env rec info range s) (h : addLoop env rec info fuel s = .ok e) :
    Relation.ReflTransGen (Round env rec info) s e ∧ ¬ e.exprPos < info.exprSize := by
  induction fuel generalizing s with
  | zero => cases h
  | succ fuel ih =>
    unfold addLoop at h
    split at h
    · rename_i hSize
      obtain ⟨t, ht, hRest⟩ := bind_eq_ok.mp h
      have hRound : Round env rec info s t := ⟨hSize, ht⟩
      obtain ⟨hEnd, hOver⟩ := ih (hs.tail hRound) hRest
      exact ⟨hEnd.head hRound, hOver⟩
    · rename_i hSize
      cases h
      exact ⟨.refl, hSize⟩

/-! ## What `adjust_jumps` does to the operands -/

section

variable {jumps : List JumpInfo} {big : Bool}

/-- There is a branch where the record says. -/
def Recorded (env : Env Obj Val) (code : Code) (i : JumpInfo) : Prop :=
  opCase i.op = .branch → ∃ x : List UInt8, x.length = 2 ∧ code.At env.bigEndian i.dstPos i.op x

variable {code : Code} {x : List UInt8}

theorem adjustJump_other (hi : Recorded env code i) {q : Nat}
    {o : UInt8} (hAt : code.At env.bigEndian q o x)
    (hne : opCase i.op = .branch → i.dstPos ≠ q) :
    (adjustJump env jumps code i).At env.bigEndian q o x := by
  unfold adjustJump
  split
  · rename_i hSet
    obtain ⟨y, hLength, hy⟩ := hi hSet.1
    exact hy.setU2_ne hAt (hne hSet.1) (by simp [hLength])
  · exact hAt

theorem adjustJump_recorded {i j : JumpInfo} (hi : Recorded env code i)
    (hj : Recorded env code j) : Recorded env (adjustJump env jumps code i) j := by
  intro hBranch
  obtain ⟨x, hLength, hx⟩ := hj hBranch
  by_cases hPos : opCase i.op = .branch → i.dstPos ≠ j.dstPos
  · exact ⟨x, hLength, adjustJump_other hi hx hPos⟩
  · push Not at hPos
    obtain ⟨hiBranch, hEq⟩ := hPos
    unfold adjustJump
    split
    · rw [hEq]
      exact ⟨_, by simp, hx.setU2 _⟩
    · exact ⟨x, hLength, hx⟩

theorem adjustJump_size (hi : Recorded env code i) :
    env.size (adjustJump env jumps code i) = env.size code := by
  unfold adjustJump
  split
  · rename_i hSet
    obtain ⟨x, hLength, hx⟩ := hi hSet.1
    exact hx.length_setU2 (by simp [hLength])
  · rfl

theorem adjustJump_shape (hi : Recorded env code i)
    (hShape : code.Shape env.bigEndian) :
    (adjustJump env jumps code i).Shape env.bigEndian := by
  unfold adjustJump
  split
  · rename_i hSet
    obtain ⟨x, -, hx⟩ := hi hSet.1
    have hFits := caseFits_all i.op
    simp only [caseFits, hSet.1, decide_eq_true_eq] at hFits
    exact hx.shape_setU2 hFits (by simp) hShape
  · exact hShape

variable {l : List JumpInfo}

theorem foldl_adjustJump_other
    (hAll : ∀ i ∈ l, Recorded env code i) {q : Nat} {o : UInt8}
    (hAt : code.At env.bigEndian q o x) (hne : ∀ i ∈ l, opCase i.op = .branch → i.dstPos ≠ q) :
    (l.foldl (adjustJump env jumps) code).At env.bigEndian q o x := by
  induction l generalizing code with
  | nil => exact hAt
  | cons i l ih =>
    rw [List.forall_mem_cons] at hAll hne
    exact ih (fun j hj => adjustJump_recorded hAll.1 (hAll.2 j hj))
      (adjustJump_other hAll.1 hAt hne.1) hne.2

theorem i2_i2 (n : Int) : i2 (i2 n) = i2 n := Int.bmod_bmod

/-- The operand that the record of a branch leaves it with. -/
theorem adjustJump_self (hBranch : opCase i.op = .branch)
    (hLength : x.length = 2) (hAt : code.At env.bigEndian i.dstPos i.op x)
    (hx : i2 (readUint env.bigEndian x) = i.jumpOffs) :
    ∃ y : List UInt8, y.length = 2 ∧
      (adjustJump env jumps code i).At env.bigEndian i.dstPos i.op y ∧
      i2 (readUint env.bigEndian y) = i2 (i.jumpOffs + jumpDelta jumps i) := by
  unfold adjustJump
  split
  · exact ⟨_, by simp, hAt.setU2 _, by rw [readUint_u2Bytes _ (u2_lt _), i2_u2]⟩
  · rename_i hSame
    have hDelta : jumpDelta jumps i = 0 := by
      by_contra h
      exact hSame ⟨hBranch, h⟩
    refine ⟨x, hLength, hAt, ?_⟩
    rw [hDelta, Int.add_zero, ← hx, i2_i2]

/-- The operand that a branch is left with, when the records are gone through. -/
theorem foldl_adjustJump_at
    (hAll : ∀ i ∈ l, Recorded env code i)
    (hDistinct : l.Pairwise fun i j =>
      opCase i.op = .branch → opCase j.op = .branch → i.dstPos ≠ j.dstPos)
    (hi : i ∈ l) (hBranch : opCase i.op = .branch)
    (hLength : x.length = 2) (hAt : code.At env.bigEndian i.dstPos i.op x)
    (hx : i2 (readUint env.bigEndian x) = i.jumpOffs) :
    ∃ y : List UInt8, y.length = 2 ∧
      (l.foldl (adjustJump env jumps) code).At env.bigEndian i.dstPos i.op y ∧
      i2 (readUint env.bigEndian y) = i2 (i.jumpOffs + jumpDelta jumps i) := by
  induction l generalizing code with
  | nil => cases hi
  | cons j l ih =>
    rw [List.forall_mem_cons] at hAll
    rw [List.pairwise_cons] at hDistinct
    have hRest : ∀ k ∈ l, Recorded env (adjustJump env jumps code j) k := fun k hk =>
      adjustJump_recorded hAll.1 (hAll.2 k hk)
    rcases List.mem_cons.mp hi with rfl | hi
    · obtain ⟨y, hyLength, hyAt, hy⟩ := adjustJump_self hBranch hLength hAt hx
      exact ⟨y, hyLength, foldl_adjustJump_other hRest hyAt
        fun k hk hk' => (hDistinct.1 k hk hBranch hk').symm, hy⟩
    · exact ih hRest hDistinct.2 hi
        (adjustJump_other hAll.1 hAt fun hj => hDistinct.1 i hi hj hBranch)

/-- Well-formed code stays well formed and keeps its size. -/
theorem foldl_adjustJump_keeps
    (hAll : ∀ i ∈ l, Recorded env code i) (hShape : code.Shape env.bigEndian) :
    (l.foldl (adjustJump env jumps) code).Shape env.bigEndian ∧
      env.size (l.foldl (adjustJump env jumps) code) = env.size code := by
  induction l generalizing code with
  | nil => exact ⟨hShape, rfl⟩
  | cons i l ih =>
    rw [List.forall_mem_cons] at hAll
    obtain ⟨hRest, hSize⟩ := ih (fun j hj => adjustJump_recorded hAll.1 (hAll.2 j hj))
      (adjustJump_shape hAll.1 hShape)
    exact ⟨hRest, hSize.trans (adjustJump_size hAll.1)⟩

end

theorem LoopInv.recorded {s : LoopState} (hInv : LoopInv env s) :
    ∀ i ∈ s.jumps, Recorded env s.code i := by
  intro i hi hBranch
  obtain ⟨x, hLength, hAt, -⟩ := hInv.branches i hi hBranch
  exact ⟨x, hLength, hAt⟩

end

section

variable {Obj Val : Type} {env : Env Obj Val} {info : ExprInfo Obj} {fuel : Nat}
  {range range' : Range} {code : Code}

/-- An accepted expression: the boundary at which it is over, and what is left of it. -/
theorem addExpression_end (h : addExpression env (fuel + 1) info range = .ok (code, range')) :
    ∃ e, Boundary env (addExpression env fuel) info range e ∧ ¬ e.exprPos < info.exprSize ∧
      code = adjustJumps env e.jumps e.code := by
  unfold addExpression at h
  split at h
  · cases h
  · simp only [bind_eq_ok, pure_eq_ok, Prod.mk.injEq] at h
    obtain ⟨e, he, rfl, -⟩ := h
    obtain ⟨hEnd, hOver⟩ := addLoop_boundary .refl he
    exact ⟨e, hEnd, hOver, rfl⟩

/-- What is emitted for an expression is well formed. -/
theorem addExpression_shape (env : Env Obj Val) (fuel : Nat) :
    RecShape env (addExpression env fuel) := by
  induction fuel with
  | zero =>
    intro info range code range' h
    cases h
  | succ fuel ih =>
    intro info range code range' h
    obtain ⟨e, hEnd, -, rfl⟩ := addExpression_end h
    have hInv := loopInv_boundary ih hEnd
    exact (foldl_adjustJump_keeps hInv.recorded hInv.shape).1

end

/-! ## The records of the changes of size -/

/-- The sum of the recorded changes of size of some operations. -/
def sumDelta (jumps : List JumpInfo) (c : Nat → Bool) : Int :=
  ((jumps.filter fun j => c j.srcPos).map (·.delta)).sum

theorem sumDelta_append (jumps jumps' : List JumpInfo) (c : Nat → Bool) :
    sumDelta (jumps ++ jumps') c = sumDelta jumps c + sumDelta jumps' c := by
  simp [sumDelta]

theorem sumDelta_singleton {j : JumpInfo} {c : Nat → Bool} (h : c j.srcPos = true) :
    sumDelta [j] c = j.delta := by
  simp [sumDelta, h]

theorem sumDelta_eq_zero {jumps : List JumpInfo} {c : Nat → Bool}
    (h : ∀ j ∈ jumps, c j.srcPos = false) : sumDelta jumps c = 0 := by
  have : jumps.filter (fun j => c j.srcPos) = [] := by
    simpa [List.filter_eq_nil_iff] using h
  simp [sumDelta, this]

section

variable {Obj Val : Type} {env : Env Obj Val} {rec : Rec Obj} {info : ExprInfo Obj}

/-- How far the code has moved, between two states of the loop. -/
def moved (env : Env Obj Val) (s t : LoopState) : Int :=
  (env.size t.code : Int) - env.size s.code - (t.exprPos - s.exprPos)

/-- What is recorded of a change of size. -/
theorem i2_diff {a a' b b' : Nat} (ha : a ≤ a') (hb : b ≤ b') :
    (i2 (i2 (a' - a : Nat) - i2 (b' - b : Nat)) - ((a' : Int) - a - (b' - b))) % 2 ^ 16 = 0 := by
  have hDst := i2_sub (a' - a : Nat)
  have hSrc := i2_sub (b' - b : Nat)
  have hDelta := i2_sub (i2 (a' - a : Nat) - i2 (b' - b : Nat))
  generalize i2 (a' - a : Nat) = x at *
  generalize i2 (b' - b : Nat) = y at *
  generalize i2 (x - y) = z at *
  omega

theorem jumpInfo_sum {s s' : LoopState} {op : UInt8} {offs : Int} {code : Code} {c : Nat → Bool}
    (hCode : s'.code = s.code ++ code) (hLt : s.exprPos < s'.exprPos)
    (hBranch : opCase op = .branch → moved env s s' = 0) (hc : c s.exprPos = true) :
    (sumDelta (jumpInfo op offs s.exprPos s'.exprPos (env.size s.code) (env.size s'.code)) c -
      moved env s s') % 2 ^ 16 = 0 := by
  have hLe : env.size s.code ≤ env.size s'.code := by
    unfold Env.size
    rw [hCode, Code.bytes_append, List.length_append]
    omega
  have hDelta := i2_diff hLe hLt.le
  unfold jumpInfo moved
  split_ifs with h hSize
  · have := hBranch h
    unfold moved at this
    simp [sumDelta, hc, this]
  · rw [sumDelta_singleton hc]
    dsimp only
    exact hDelta
  · simp only [sumDelta, List.filter_nil, List.map_nil, List.sum_nil]
    omega

/-- What a round of the loop adds to the records. -/
theorem round_sum (hRec : RecShape env rec) {s s' : LoopState} (h : Round env rec info s s')
    (c : Nat → Bool) : s' = s ∨ s.exprPos < s'.exprPos ∧
      (c s.exprPos = true →
        (sumDelta s'.jumps c - sumDelta s.jumps c - moved env s s') % 2 ^ 16 = 0) ∧
      (c s.exprPos = false → sumDelta s'.jumps c = sumDelta s.jumps c) := by
  rcases addOp_spec hRec h.2 with rfl | ⟨op, offs, code, -, hEmits, hCode, hJumps, hBranch⟩
  · exact .inl rfl
  · refine .inr ⟨hEmits.1, fun hc => ?_, fun hc => ?_⟩
    · have hMoved : opCase op = .branch → moved env s s' = 0 := by
        intro h
        obtain ⟨-, -, hNext, operand, hLength, rfl, -⟩ := hBranch h
        simp only [moved, Env.size, hCode, hNext, Code.bytes_append, Code.bytes,
          List.length_append, List.flatMap_cons, List.flatMap_nil, List.length_cons, Operand.bytes,
          hLength, List.length_nil]
        omega
      have := @jumpInfo_sum _ _ env _ _ _ offs _ _ hCode hEmits.1 hMoved hc
      rw [hJumps, sumDelta_append]
      omega
    · rw [hJumps, sumDelta_append, sumDelta_eq_zero, Int.zero_add]
      intro j hj
      rw [(mem_jumpInfo hj).2.1, hc]

variable {s t : LoopState}

/-- The loop does not go back. -/
theorem path_mono (hRec : RecShape env rec)
    (h : Relation.ReflTransGen (Round env rec info) s t) : s.exprPos ≤ t.exprPos := by
  induction h with
  | refl => exact le_rfl
  | tail _ hRound ih =>
    rcases round_sum hRec hRound (fun _ => true) with rfl | ⟨hLt, -⟩
    · exact ih
    · exact ih.trans hLt.le

/-- Operations all of which are summed up: the changes of size that are recorded add up to
how far the code has moved. -/
theorem sizes_path (hRec : RecShape env rec) {c : Nat → Bool}
    (h : Relation.ReflTransGen (Round env rec info) s t)
    (hc : ∀ u, Relation.ReflTransGen (Round env rec info) s u → u.exprPos < t.exprPos →
      c u.exprPos = true) :
    (sumDelta t.jumps c - sumDelta s.jumps c - moved env s t) % 2 ^ 16 = 0 := by
  induction h with
  | refl => simp [moved]
  | @tail u v hPath hRound ih =>
    rcases round_sum hRec hRound c with rfl | ⟨hLt, hTrue, -⟩
    · exact ih hc
    · have hStep := hTrue (hc u hPath hLt)
      have hRest := ih fun w hw hwu => hc w hw (hwu.trans hLt)
      simp only [moved] at hStep hRest ⊢
      omega

/-- Operations none of which are summed up. -/
theorem sum_path (hRec : RecShape env rec) {c : Nat → Bool}
    (h : Relation.ReflTransGen (Round env rec info) s t)
    (hc : ∀ u, Relation.ReflTransGen (Round env rec info) s u → u.exprPos < t.exprPos →
      c u.exprPos = false) : sumDelta t.jumps c = sumDelta s.jumps c := by
  induction h with
  | refl => rfl
  | @tail u v hPath hRound ih =>
    rcases round_sum hRec hRound c with rfl | ⟨hLt, -, hFalse⟩
    · exact ih hc
    · rw [hFalse (hc u hPath hLt)]
      exact ih fun w hw hwu => hc w hw (hwu.trans hLt)

/-! ## Boundaries -/

theorem round_unique : Relator.RightUnique (Round env rec info) := by
  intro s t t' h h'
  have := h.2.symm.trans h'.2
  cases this
  rfl

/-- Two boundaries at one place are one. -/
theorem path_eq (hRec : RecShape env rec)
    (h : Relation.ReflTransGen (Round env rec info) s t) (hEq : s.exprPos = t.exprPos) : s = t := by
  induction h with
  | refl => rfl
  | @tail u v hPath hRound ih =>
    rcases round_sum hRec hRound (fun _ => true) with rfl | ⟨hLt, -⟩
    · exact ih hEq
    · have := path_mono hRec hPath
      omega

variable {range : Range} {s t : LoopState}

/-- From a boundary the loop gets to those that are not before it. -/
theorem path_of_le (hRec : RecShape env rec) (hs : Boundary env rec info range s)
    (ht : Boundary env rec info range t) (hLe : s.exprPos ≤ t.exprPos) :
    Relation.ReflTransGen (Round env rec info) s t := by
  rcases Relation.ReflTransGen.total_of_right_unique round_unique hs ht with h | h
  · exact h
  · rw [path_eq hRec h (le_antisymm (path_mono hRec h) hLe)]

theorem firstFrom_exists {first : Nat} (ht : Boundary env rec info range t)
    (hLe : first ≤ t.exprPos) : ∃ w, FirstFrom env rec info range first w := by
  classical
  have hSome : ∃ n, ∃ w, Boundary env rec info range w ∧ first ≤ w.exprPos ∧ w.exprPos = n :=
    ⟨_, t, ht, hLe, rfl⟩
  obtain ⟨w, hw, hFirst, hEq⟩ := Nat.find_spec hSome
  refine ⟨w, hw, hFirst, fun s hs hsFirst => ?_⟩
  rw [hEq]
  exact Nat.find_min' hSome ⟨s, hs, hsFirst, rfl⟩

/-- A loop that stays where it is does not end. -/
theorem path_stuck {e : LoopState} (hStuck : Round env rec info s s)
    (h : Relation.ReflTransGen (Round env rec info) s e) : e = s := by
  induction h with
  | refl => rfl
  | tail _ hRound ih =>
    subst ih
    exact round_unique hRound hStuck

variable {e : LoopState}

/-- The last boundary comes after all others. -/
theorem path_end (hs : Boundary env rec info range s) (he : Boundary env rec info range e)
    (hOver : ¬ e.exprPos < info.exprSize) : Relation.ReflTransGen (Round env rec info) s e := by
  rcases Relation.ReflTransGen.total_of_right_unique round_unique hs he with h | h
  · exact h
  · rcases h.cases_head with rfl | ⟨u, hRound, -⟩
    · exact .refl
    · exact absurd hRound.1 hOver

/-- The round at a branch of an expression that is accepted: the branch is copied, and
there is a record of it. -/
theorem branch_round (hRec : RecShape env rec) (hs : Boundary env rec info range s)
    (he : Boundary env rec info range e) (hOver : ¬ e.exprPos < info.exprSize)
    (hSize : s.exprPos < info.exprSize) {op : UInt8} (hOp : info.byte s.exprPos = .ok op)
    (hBranch : opCase op = .branch) {offs : Int} (hOffs : info.jumpOffs env s.exprPos = .ok offs) :
    offs ≠ 0 ∧ ∃ u, Round env rec info s u ∧ Relation.ReflTransGen (Round env rec info) u e ∧
      u.exprPos = s.exprPos + 3 ∧ env.size u.code = env.size s.code + 3 ∧
      u.jumps = { op, jumpOffs := offs, srcPos := s.exprPos, dstPos := env.size s.code } ::
        s.jumps := by
  rcases (path_end hs he hOver).cases_head with rfl | ⟨u, hRound, hRest⟩
  · exact absurd hSize hOver
  · rcases addOp_spec hRec hRound.2 with
      rfl | ⟨op', offs', code, hOp', -, hCode, hJumps, hCopy⟩
    · have := path_stuck hRound hRest
      subst this
      exact absurd hSize hOver
    · obtain rfl : op = op' := by
        have := hOp.symm.trans hOp'
        cases this
        rfl
      obtain ⟨hOffs', hNe, hNext, operand, hLength, rfl, -⟩ := hCopy hBranch
      obtain rfl : offs = offs' := by
        have := hOffs.symm.trans hOffs'
        cases this
        rfl
      refine ⟨hNe, u, hRound, hRest, hNext, ?_, ?_⟩
      · simp [Env.size, hCode, Code.bytes_append, Code.bytes, Operand.bytes, hLength]
      · rw [hJumps]
        simp [jumpInfo, hBranch]

/-- Records are kept. -/
theorem jumps_subset (hRec : RecShape env rec)
    (h : Relation.ReflTransGen (Round env rec info) s t) : s.jumps ⊆ t.jumps := by
  induction h with
  | refl => exact List.Subset.refl _
  | tail _ hRound ih =>
    rcases addOp_spec hRec hRound.2 with rfl | ⟨_, _, _, _, _, _, hJumps, _⟩
    · exact ih
    · rw [hJumps]
      exact List.Subset.trans ih (List.subset_append_right _ _)

/-- What has been emitted stays. -/
theorem path_size (hRec : RecShape env rec)
    (h : Relation.ReflTransGen (Round env rec info) s t) : env.size s.code ≤ env.size t.code := by
  induction h with
  | refl => exact le_rfl
  | tail _ hRound ih =>
    rcases addOp_spec hRec hRound.2 with rfl | ⟨_, _, _, _, _, hCode, _, _⟩
    · exact ih
    · rw [hCode]
      unfold Env.size at ih ⊢
      rw [Code.bytes_append, List.length_append]
      omega

theorem wrap_of_lt {n : Int} (h0 : 0 ≤ n) (h : n < 2 ^ 64) : (wrap n : Int) = n := by
  unfold wrap
  rw [Int.toNat_of_nonneg (by omega)]
  exact Int.emod_eq_of_lt h0 h

theorem wrap_neg {n : Int} (h0 : n < 0) (h : -2 ^ 63 ≤ n) : 2 ^ 63 ≤ (wrap n : Int) := by
  unfold wrap
  rw [Int.toNat_of_nonneg (by omega)]
  omega

/-- What the changes of size that a branch takes into account amount to, for a target at or
after the next operation. -/
theorem jumpDelta_forward (hRec : RecShape env rec) {u w : LoopState}
    (hs : Boundary env rec info range s) (hRound : Round env rec info s u)
    (hu : u.exprPos = s.exprPos + 3) (huSize : env.size u.code = env.size s.code + 3)
    (hwe : Relation.ReflTransGen (Round env rec info) w e) {i : JumpInfo}
    (hSrc : i.srcPos = s.exprPos) (hOffs : 0 < i.jumpOffs)
    (hTarget : (t.exprPos : Int) = s.exprPos + 3 + i.jumpOffs) (hLimit : t.exprPos < 2 ^ 64)
    (hw : FirstFrom env rec info range (t.exprPos - 3) w) :
    (jumpDelta e.jumps i - moved env s w) % 2 ^ 16 = 0 := by
  have hWrap := wrap_of_lt (n := i.srcPos + i.jumpOffs) (by omega) (by omega)
  have hCounts : ∀ k, counts i k = true ↔ s.exprPos < k ∧ k + 3 < t.exprPos := by
    intro k
    simp only [counts, hOffs, if_true, Bool.and_eq_true, decide_eq_true_eq]
    omega
  have hCounts' : ∀ k, counts i k = false ↔ ¬ (s.exprPos < k ∧ k + 3 < t.exprPos) := by
    intro k
    rw [← hCounts k, Bool.not_eq_true]
  have hBefore : sumDelta u.jumps (counts i) = 0 := by
    have hInit : sumDelta s.jumps (counts i) = 0 := by
      rw [sum_path hRec hs fun v _ hv => (hCounts' _).mpr (by omega)]
      rfl
    rcases round_sum hRec hRound (counts i) with rfl | ⟨-, -, hFalse⟩
    · exact hInit
    · rw [hFalse ((hCounts' _).mpr (by omega)), hInit]
  have huw : Relation.ReflTransGen (Round env rec info) u w := by
    rcases (path_of_le hRec hs hw.1 (by have := hw.2.1; omega)).cases_head with rfl | ⟨v, hv, hvw⟩
    · have := hw.2.1
      omega
    · rwa [round_unique hRound hv]
  have hBetween := sizes_path hRec huw (c := counts i) fun v hv hvw => by
    have hvs := path_mono hRec hv
    have hFirst := hw.2.2 v ((hs.tail hRound).trans hv)
    rw [hCounts]
    omega
  have hAfter : sumDelta e.jumps (counts i) = sumDelta w.jumps (counts i) :=
    sum_path hRec hwe fun v hv _ => (hCounts' _).mpr (by
      have := path_mono hRec hv
      have := hw.2.1
      omega)
  have hDelta : jumpDelta e.jumps i = sumDelta e.jumps (counts i) := by
    simp only [jumpDelta, sumDelta, hOffs, if_true]
  rw [hDelta, hAfter]
  simp only [moved] at hBetween ⊢
  omega

/-- The same for a target at or before the branch. -/
theorem jumpDelta_backward (hRec : RecShape env rec) {w : LoopState}
    (hs : Boundary env rec info range s) (hLimit : s.exprPos < 2 ^ 63)
    (hse : Relation.ReflTransGen (Round env rec info) s e)
    {i : JumpInfo} (hSrc : i.srcPos = s.exprPos) (hOffs : i.jumpOffs < 0)
    (hTarget : (t.exprPos : Int) = s.exprPos + 3 + i.jumpOffs) (ht : t.exprPos ≤ s.exprPos)
    (hw : FirstFrom env rec info range
      (if t.exprPos < 3 then s.exprPos else t.exprPos - 2) w) :
    (jumpDelta e.jumps i - moved env s w) % 2 ^ 16 = 0 := by
  have hNotPos : ¬ i.jumpOffs > 0 := by omega
  have hws : w.exprPos ≤ s.exprPos := hw.2.2 s hs (by split <;> omega)
  have hFirst := hw.2.1
  have hPath := path_of_le hRec hw.1 hs hws
  have hCounts : ∀ k, counts i k = true ↔
      (3 ≤ t.exprPos ∧ t.exprPos < k + 3) ∧ k < s.exprPos := by
    intro k
    simp only [counts, hNotPos, if_false, Bool.and_eq_true, decide_eq_true_eq]
    rcases Nat.lt_or_ge t.exprPos 3 with h3 | h3
    · have := wrap_neg (n := i.srcPos + i.jumpOffs) (by omega) (by omega)
      omega
    · have := wrap_of_lt (n := i.srcPos + i.jumpOffs) (by omega) (by omega)
      omega
  have hCounts' : ∀ k, counts i k = false ↔
      ¬ ((3 ≤ t.exprPos ∧ t.exprPos < k + 3) ∧ k < s.exprPos) := by
    intro k
    rw [← hCounts k, Bool.not_eq_true]
  have hBefore : sumDelta w.jumps (counts i) = 0 := by
    rw [sum_path hRec hw.1 fun v hv hvw => (hCounts' _).mpr (by
      have := hw.2.2 v hv
      split at this <;> omega)]
    rfl
  have hBetween := sizes_path hRec hPath (c := counts i) fun v hv hvs => by
    have := path_mono hRec hv
    rw [hCounts]
    split at hFirst <;> omega
  have hAfter : sumDelta e.jumps (counts i) = sumDelta s.jumps (counts i) :=
    sum_path hRec hse fun v hv _ => (hCounts' _).mpr (by
      have := path_mono hRec hv
      omega)
  have hDelta : jumpDelta e.jumps i = -sumDelta e.jumps (counts i) := by
    simp only [jumpDelta, sumDelta, hNotPos, if_false]
  rw [hDelta, hAfter]
  simp only [moved] at hBetween ⊢
  omega

end

/-- Where a branch with a given operand leads. -/
theorem branchTo_at {big : Bool} {code : Code} {pos : Nat} {o : UInt8} {y : List UInt8}
    (hAt : code.At big pos o y) (hLength : y.length = 2) (pre post : List UInt8) {target : Nat}
    (hTarget : target ≤ (code.bytes big).length) :
    branchTo big (pre ++ code.bytes big ++ post) (pre.length + pos) =
        some (pre.length + target) ↔
      i2 (readUint big y) = (target : Int) - (pos + 3) := by
  obtain ⟨a, c, rfl, rfl⟩ := hAt
  obtain ⟨y0, y1, rfl⟩ := List.length_eq_two.mp hLength
  have hBytes : pre ++ (a ++ .op o [.data [y0, y1]] c).bytes big ++ post =
      (pre ++ a.bytes big ++ [o]) ++ y0 :: y1 :: (c.bytes big ++ post) := by
    simp [Code.bytes_append, Code.bytes, Operand.bytes]
  have hLen : (pre ++ a.bytes big ++ [o]).length = pre.length + (a.bytes big).length + 1 := by
    simp only [List.length_append, List.length_cons, List.length_nil]
  have hTotal : (pre ++ (a ++ .op o [.data [y0, y1]] c).bytes big ++ post).length =
      pre.length + ((a ++ .op o [.data [y0, y1]] c).bytes big).length + post.length := by
    simp only [List.length_append]
  have h0 : (pre ++ (a ++ .op o [.data [y0, y1]] c).bytes big ++ post)[pre.length +
      (a.bytes big).length + 1]? = some y0 := by
    rw [hBytes, List.getElem?_append_right (by omega), hLen]
    simp
  have h1 : (pre ++ (a ++ .op o [.data [y0, y1]] c).bytes big ++ post)[pre.length +
      (a.bytes big).length + 2]? = some y1 := by
    rw [hBytes, List.getElem?_append_right (by omega), hLen]
    simp
  unfold branchTo
  rw [h0, h1]
  dsimp only
  rw [hTotal]
  generalize i2 (readUint big [y0, y1]) = offs
  split_ifs with hOut
  · simp only [false_iff]
    omega
  · rw [Option.some.injEq]
    omega

variable {Obj Val : Type} {env : Env Obj Val} {info : ExprInfo Obj} {fuel : Nat}
  {range range' : Range} {code : Code} {s t : LoopState} {op : UInt8} {offs : Int}

/-- In every expression that is accepted, a branch whose target is an operation of the
source leads to where that operation has gone, whatever the expression is part of, exactly
if the operations from `firstLeftOut` to the target have, together, kept their size and the
distance fits in 16 bits. -/
theorem branch_iff (h : addExpression env (fuel + 1) info range = .ok (code, range'))
    (hs : Boundary env (addExpression env fuel) info range s)
    (ht : Boundary env (addExpression env fuel) info range t)
    (hSize : s.exprPos < info.exprSize) (hOp : info.byte s.exprPos = .ok op)
    (hBranch : op = Op.bra ∨ op = Op.skip) (hOffs : info.jumpOffs env s.exprPos = .ok offs)
    (hTarget : (t.exprPos : Int) = s.exprPos + 3 + offs) (pre post : List UInt8) :
    branchTo env.bigEndian (pre ++ code.bytes env.bigEndian ++ post)
        (pre.length + env.size s.code) = some (pre.length + env.size t.code) ↔
      (-2 ^ 15 ≤ (env.size t.code : Int) - (env.size s.code + 3) ∧
        (env.size t.code : Int) - (env.size s.code + 3) < 2 ^ 15) ∧
      ∃ w, FirstFrom env (addExpression env fuel) info range
        (firstLeftOut s.exprPos t.exprPos offs) w ∧ SameSize env w t := by
  have hRec := addExpression_shape env fuel
  have hCase : opCase op = .branch := by rcases hBranch with rfl | rfl <;> rfl
  obtain ⟨e, he, hOver, rfl⟩ := addExpression_end h
  obtain ⟨hNe, u, hRound, hue, hu, huSize, hJumps⟩ :=
    branch_round hRec hs he hOver hSize hOp hCase hOffs
  have hInv := loopInv_boundary hRec he
  have hMem : ({ op, jumpOffs := offs, srcPos := s.exprPos, dstPos := env.size s.code } :
      JumpInfo) ∈ e.jumps := jumps_subset hRec hue (by rw [hJumps]; exact List.mem_cons_self)
  obtain ⟨x, hxLength, hxAt, hx⟩ := hInv.branches _ hMem hCase
  obtain ⟨y, hyLength, hyAt, hy⟩ : ∃ y : List UInt8, y.length = 2 ∧
      (adjustJumps env e.jumps e.code).At env.bigEndian (env.size s.code) op y ∧
      i2 (readUint env.bigEndian y) =
        i2 (offs + jumpDelta e.jumps ⟨op, 0, offs, s.exprPos, env.size s.code⟩) :=
    foldl_adjustJump_at hInv.recorded hInv.distinct hMem hCase hxLength hxAt hx
  have hKeeps : env.size (adjustJumps env e.jumps e.code) = env.size e.code :=
    (foldl_adjustJump_keeps hInv.recorded hInv.shape).2
  have hTargetSize : env.size t.code ≤ env.size (adjustJumps env e.jumps e.code) :=
    (path_size hRec (path_end ht he hOver)).trans hKeeps.ge
  rw [branchTo_at hyAt hyLength pre post hTargetSize, hy, i2_eq_iff]
  refine and_congr_right fun _ => ?_
  have hInfo := info.hSize
  -- Ahead of the branch there is only its operand before the next operation.
  have hBack : offs < 0 → t.exprPos ≤ s.exprPos := by
    intro hNeg
    by_contra hGt
    rcases (path_of_le hRec hs ht (by omega)).cases_head with rfl | ⟨v, hv, hvt⟩
    · exact hGt le_rfl
    · obtain rfl := round_unique hRound hv
      have := path_mono hRec hvt
      omega
  have hLeftOut : ∀ w, FirstFrom env (addExpression env fuel) info range
      (firstLeftOut s.exprPos t.exprPos offs) w →
      (jumpDelta e.jumps ⟨op, 0, offs, s.exprPos, env.size s.code⟩ - moved env s w) % 2 ^ 16 =
        0 := by
    intro w hw
    rcases lt_or_gt_of_ne hNe with hNeg | hPos
    · rw [firstLeftOut, if_neg (by omega)] at hw
      exact jumpDelta_backward hRec hs (by omega) (path_end hs he hOver) rfl hNeg hTarget
        (hBack hNeg) hw
    · rw [firstLeftOut, if_pos (by omega)] at hw
      have hOffsBound : offs < 2 ^ 15 := by
        simp only [ExprInfo.jumpOffs, bind_eq_ok, pure_eq_ok] at hOffs
        obtain ⟨bytes, -, rfl⟩ := hOffs
        exact (i2_bounds _).2
      exact jumpDelta_forward hRec hs hRound hu huSize (path_end hw.1 he hOver) rfl hPos hTarget
        (by omega) hw
  -- the corrected branch is right when the code between has kept its size
  have hMoved : ∀ w, FirstFrom env (addExpression env fuel) info range
      (firstLeftOut s.exprPos t.exprPos offs) w →
      (((env.size t.code : Int) - (env.size s.code + 3) -
        (offs + jumpDelta e.jumps ⟨op, 0, offs, s.exprPos, env.size s.code⟩)) % 2 ^ 16 = 0 ↔
      SameSize env w t) := by
    intro w hw
    have := hLeftOut w hw
    simp only [SameSize, moved] at this ⊢
    omega
  obtain ⟨w, hw⟩ : ∃ w, FirstFrom env (addExpression env fuel) info range
      (firstLeftOut s.exprPos t.exprPos offs) w := by
    by_cases hFar : offs > 0 ∨ 3 ≤ t.exprPos
    · exact firstFrom_exists ht (by unfold firstLeftOut; split_ifs <;> omega)
    · exact firstFrom_exists hs (by unfold firstLeftOut; split_ifs <;> omega)
  constructor
  · intro hEq
    exact ⟨w, hw, (hMoved w hw).mp hEq⟩
  · rintro ⟨v, hv, hSame⟩
    exact (hMoved v hv).mpr hSame

/-! ## A branch over an operation that grows -/

/-- No debug information at all. -/
def plainEnv : Env Unit Unit where
  unit _ :=
    { addressSize := 8, is64bit := false, version := 4, sectionAddr := 0, unitOffs := 0
      bigEndian := false, elf64 := true, byteSwap := false, producer := [] }
  bigEndian := false
  noFrame := false
  hasState := true
  peerVersion := true
  pcDwarfId := none
  framePc := invDwarf ""
  relocate _ _ _ _ := invDwarf ""
  relocateLink _ _ _ _ := invDwarf ""
  runTimeAddress _ _ _ := invDwarf ""
  tlsAddress _ := invDwarf ""
  parentFunction _ := none
  functionAt _ _ := invDwarf ""
  frameBase _ := invDwarf ""
  expressionList _ := invDwarf ""
  findObject _ _ := none
  hasLocation _ := false
  hasConstValue _ := false
  location _ := invDwarf ""
  constValue _ := invDwarf ""
  symbolId _ := invDwarf ""
  isBaseType _ := false
  byteSize _ := none
  fundType _ := 0
  callSites _ _ _ _ := invDwarf ""

/-- `OP_skip` over `OP_GNU_convert` to `OP_nop`. The second is emitted with one operand
more than it has in the source. -/
def skipConvert : ExprInfo Unit where
  object := ()
  exprAddr := [0x2f, 2, 0, 0xf7, 0, 0x96]
  exprSize := 6
  hSize := by decide

/-- Where the loop is at the `OP_nop`. -/
def atNop : LoopState where
  exprPos := 5
  code := .op 0x2f [.data [2, 0]] (.op 0xf7 [.leb [0], .leb [0]] .nil)
  jumps := [⟨0xf7, 1, 0, 3, 3⟩, ⟨0x2f, 0, 2, 0, 0⟩]
  range := ⟨0, 0⟩

theorem atNop_boundary :
    Boundary plainEnv (addExpression plainEnv 9) skipConvert ⟨0, 0⟩ atNop := by
  have hSkip : Round plainEnv (addExpression plainEnv 9) skipConvert { range := ⟨0, 0⟩ }
      { exprPos := 3, code := .op 0x2f [.data [2, 0]] .nil,
        jumps := [⟨0x2f, 0, 2, 0, 0⟩], range := ⟨0, 0⟩ } := ⟨by decide, by decide +kernel⟩
  exact (Relation.ReflTransGen.single hSkip).tail ⟨by decide, by decide +kernel⟩

/-- The code in which the offset is still 2. -/
def skipConvertCode : Code :=
  .op 0x2f [.data [2, 0]] (.op 0xf7 [.leb [0], .leb [0]] (.op 0x96 [] .nil))

theorem skipConvert_accepted :
    addExpression plainEnv 10 skipConvert ⟨0, 0⟩ = .ok (skipConvertCode, ⟨0, 0⟩) := by
  decide

/-- The branch of an accepted expression leads into the operation that it was to skip. -/
theorem branch_astray : ¬ ∀ (info : ExprInfo Unit) (range range' : Range) (code : Code)
    (s t : LoopState) (op : UInt8) (offs : Int),
    addExpression plainEnv 10 info range = .ok (code, range') →
    Boundary plainEnv (addExpression plainEnv 9) info range s →
    Boundary plainEnv (addExpression plainEnv 9) info range t →
    s.exprPos < info.exprSize → info.byte s.exprPos = .ok op → (op = Op.bra ∨ op = Op.skip) →
    info.jumpOffs plainEnv s.exprPos = .ok offs → (t.exprPos : Int) = s.exprPos + 3 + offs →
    branchTo false (code.bytes false) (plainEnv.size s.code) =
      some (plainEnv.size t.code) := by
  intro h
  have := h skipConvert ⟨0, 0⟩ ⟨0, 0⟩ skipConvertCode { range := ⟨0, 0⟩ } atNop 0x2f 2
    skipConvert_accepted .refl atNop_boundary (by decide) (by decide) (.inr rfl)
    (by decide) rfl
  revert this
  decide

/-- What `branch_iff` says of it. -/
theorem branch_iff_skipConvert :
    branchTo false ([] ++ skipConvertCode.bytes false ++ []) (0 + 0) = some (0 + 6) ↔
      (-2 ^ 15 ≤ (6 : Int) - (0 + 3) ∧ (6 : Int) - (0 + 3) < 2 ^ 15) ∧
      ∃ w, FirstFrom plainEnv (addExpression plainEnv 9) skipConvert ⟨0, 0⟩
        (firstLeftOut 0 5 2) w ∧ SameSize plainEnv w atNop :=
  @branch_iff _ _ plainEnv skipConvert 9 ⟨0, 0⟩ ⟨0, 0⟩ skipConvertCode { range := ⟨0, 0⟩ } atNop
    0x2f 2 skipConvert_accepted .refl atNop_boundary (by decide) (by decide) (.inr rfl)
    (by decide) rfl [] []

end TcfAgent.DwarfTransform
