import Mathlib.Data.List.Basic
import Mathlib.Tactic

/-!
# Programs that scan a buffer

A program looks at the bytes of a buffer one after the other and writes some of them; which ones
depends on what it has seen. The buffer is longer than the part of it that is valid, so that what a
program has looked at is of interest besides what it comes to.

`Within n p Q buf` says that `p` looks at the first `n` bytes only, comes to its end, and that `Q`
holds there.

Main results:

* `within_bind`   — one program after the other;
* `within_iff`    — what the judgment says about a run;
* `Within.agree`  — on a buffer with the same first bytes the program does the same.
-/

namespace TcfAgent.Lib

/-- `stuck` is a loop that has taken more rounds than it can. -/
inductive Scan (α : Type) where
  | done (a : α)
  | look (i : Nat) (next : UInt8 → Scan α)
  | put (i : Nat) (c : UInt8) (next : Scan α)
  | stuck

namespace Scan

variable {α β : Type}

/-! ## Programs -/

def bind (q : α → Scan β) : Scan α → Scan β
  | .done a => q a
  | .look i next => .look i fun c => bind q (next c)
  | .put i c next => .put i c (bind q next)
  | .stuck => .stuck

instance : Monad Scan where
  pure := .done
  bind p q := p.bind q

/-- The byte at a position. -/
def byte (i : Nat) : Scan UInt8 := .look i .done

def write (i : Nat) (c : UInt8) : Scan Unit := .put i c (.done ⟨⟩)

/-- What a program comes to, and the buffer then. -/
def run : Scan α → List UInt8 → Option (α × List UInt8)
  | .done a, buf => some (a, buf)
  | .look i next, buf =>
    match buf[i]? with
    | some c => run (next c) buf
    | none => none
  | .put i c next, buf => run next (buf.set i c)
  | .stuck, _ => none

/-- The positions that a program looks at. -/
def looks : Scan α → List UInt8 → List Nat
  | .done _, _ => []
  | .look i next, buf =>
    match buf[i]? with
    | some c => i :: looks (next c) buf
    | none => [i]
  | .put i c next, buf => looks next (buf.set i c)
  | .stuck, _ => []

/-- Forward to the first byte that meets the condition, for at most so many bytes. -/
def scanTo (stop : UInt8 → Bool) : Nat → Nat → Scan Nat
  | 0, p => pure p
  | n + 1, p => do
    let c ← byte p
    if stop c then pure p else scanTo stop n (p + 1)

/-- The bytes up to a zero, of which there are less than the number. -/
def cstr : Nat → Nat → Scan (List UInt8)
  | 0, _ => .stuck
  | n + 1, p => do
    let c ← byte p
    if c = 0 then pure []
    else do
      let str ← cstr n (p + 1)
      pure (c :: str)

/-! ## Within the first bytes -/

/-- The program looks at the first `n` bytes only, and ends in `Q`. -/
def Within (n : Nat) (Q : α → List UInt8 → Prop) : Scan α → List UInt8 → Prop
  | .done a, buf => Q a buf
  | .look i next, buf => i < n ∧ ∃ c, buf[i]? = some c ∧ Within n Q (next c) buf
  | .put i c next, buf => Within n Q next (buf.set i c)
  | .stuck, _ => False

/-- The first bytes are the same. -/
def Agree (n : Nat) (buf buf' : List UInt8) : Prop := ∀ i < n, buf[i]? = buf'[i]?

section

variable {n k p z : Nat} {Q Q' : α → List UInt8 → Prop} {R : β → List UInt8 → Prop} {prog : Scan α}
  {next : α → Scan β} {buf buf' : List UInt8} {a : α} {stop : UInt8 → Bool}

theorem within_bind : Within n R (prog >>= next) buf ↔
    Within n (fun a buf => Within n R (next a) buf) prog buf := by
  show Within n R (prog.bind next) buf ↔ _
  induction prog generalizing buf with
  | done a => exact Iff.rfl
  | look i more ih =>
    refine and_congr_right fun _ => exists_congr fun c => and_congr_right fun _ => ?_
    exact ih c
  | put i c more ih => exact ih
  | stuck => exact Iff.rfl

theorem Within.imp (h : Within n Q prog buf) (hQ : ∀ a buf, Q a buf → Q' a buf) :
    Within n Q' prog buf := by
  induction prog generalizing buf with
  | done a => exact hQ a buf h
  | look i more ih =>
    obtain ⟨hInside, c, hByte, hMore⟩ := h
    exact ⟨hInside, c, hByte, ih c hMore⟩
  | put i c more ih => exact ih h
  | stuck => exact h

theorem Within.bind (h : Within n Q prog buf) (hNext : ∀ a buf, Q a buf → Within n R (next a) buf) :
    Within n R (prog >>= next) buf := within_bind.2 (h.imp hNext)

theorem within_byte {Q : UInt8 → List UInt8 → Prop} :
    Within n Q (byte p) buf ↔ p < n ∧ ∃ c, buf[p]? = some c ∧ Q c buf := Iff.rfl

theorem within_write {Q : Unit → List UInt8 → Prop} {c : UInt8} :
    Within n Q (write p c) buf ↔ Q ⟨⟩ (buf.set p c) := Iff.rfl

theorem Within.and (h : Within n Q prog buf) (h' : Within n Q' prog buf) :
    Within n (fun a buf => Q a buf ∧ Q' a buf) prog buf := by
  induction prog generalizing buf with
  | done a => exact ⟨h, h'⟩
  | look i more ih =>
    obtain ⟨hInside, c, hByte, hMore⟩ := h
    obtain ⟨-, c', hByte', hMore'⟩ := h'
    obtain rfl : c = c' := Option.some.inj (hByte.symm.trans hByte')
    exact ⟨hInside, c, hByte, ih c hMore hMore'⟩
  | put i c more ih => exact ih h h'
  | stuck => exact h

/-- The judgment as a fact about the run of a program. -/
theorem within_iff : Within n Q prog buf ↔
    (∀ i ∈ looks prog buf, i < n) ∧ ∃ a buf', run prog buf = some (a, buf') ∧ Q a buf' := by
  induction prog generalizing buf with
  | done a =>
    constructor
    · exact fun hQ => ⟨fun i hi => absurd hi List.not_mem_nil, a, buf, rfl, hQ⟩
    · rintro ⟨-, a', buf', hRun, hQ⟩
      cases hRun
      exact hQ
  | look i more ih =>
    rcases hByte : buf[i]? with - | c
    · constructor
      · rintro ⟨-, c, hSome, -⟩
        rw [hByte] at hSome
        cases hSome
      · rintro ⟨-, a, buf', hRun, -⟩
        rw [run, hByte] at hRun
        cases hRun
    · rw [Within, looks, run, hByte]
      simp only [Option.some.injEq, exists_eq_left', List.mem_cons, forall_eq_or_imp]
      rw [ih c, and_assoc]
  | put i c more ih => exact ih
  | stuck =>
    refine iff_of_false not_false ?_
    rintro ⟨-, a, buf', hRun, -⟩
    cases hRun

theorem Agree.set (h : Agree n buf buf') (hLength : buf.length = buf'.length) (i : Nat)
    (c : UInt8) :
    Agree n (buf.set i c) (buf'.set i c) := by
  intro j hj
  rw [List.getElem?_set, List.getElem?_set, h j hj, hLength]

/-- A program that looks at the first bytes only does the same wherever they are the same. -/
theorem Within.agree (h : Within n Q prog buf) (hAgree : Agree n buf buf')
    (hLength : buf.length = buf'.length) :
    looks prog buf' = looks prog buf ∧
      ∃ a t t', run prog buf = some (a, t) ∧ run prog buf' = some (a, t') ∧ Q a t := by
  induction prog generalizing buf buf' with
  | done a => exact ⟨rfl, a, buf, buf', rfl, rfl, h⟩
  | look i more ih =>
    obtain ⟨hInside, c, hByte, hMore⟩ := h
    obtain ⟨hLooks, a, t, t', hRun, hRun', hQ⟩ := ih c hMore hAgree hLength
    have hByte' : buf'[i]? = some c := (hAgree i hInside).symm.trans hByte
    refine ⟨?_, a, t, t', ?_, ?_, hQ⟩
    · rw [looks, looks, hByte, hByte']
      exact congrArg _ hLooks
    · rw [run, hByte]
      exact hRun
    · rw [run, hByte']
      exact hRun'
  | put i c more ih =>
    refine ih h (hAgree.set hLength i c) ?_
    rw [List.length_set, List.length_set, hLength]
  | stuck => exact absurd h not_false

/-! ## Loops -/

/-- Where the scan stops: no byte before meets the condition. -/
theorem scanTo_within (hEnd : p + k ≤ n) (hLength : n ≤ buf.length) :
    Within n (fun q t => t = buf ∧ p ≤ q ∧ q ≤ p + k ∧
      (q < p + k → ∃ c, buf[q]? = some c ∧ stop c) ∧
      ∀ r, p ≤ r → r < q → ∃ c, buf[r]? = some c ∧ ¬ stop c) (scanTo stop k p) buf := by
  induction k generalizing p with
  | zero =>
    refine ⟨rfl, le_refl _, le_refl _, ?_, ?_⟩
    · exact fun hLess => absurd hLess (Nat.lt_irrefl _)
    · exact fun r hLe hLess => absurd hLess (Nat.not_lt.2 hLe)
  | succ k ih =>
    have hByte : buf[p]? = some buf[p] := List.getElem?_eq_getElem (by omega)
    refine within_bind.2 ⟨by omega, buf[p], hByte, ?_⟩
    show Within n _ (if stop buf[p] then pure p else scanTo stop k (p + 1)) buf
    split
    · rename_i hStop
      refine ⟨rfl, le_refl _, Nat.le_add_right _ _, fun _ => ⟨_, hByte, hStop⟩, ?_⟩
      exact fun r hLe hLess => absurd hLess (Nat.not_lt.2 hLe)
    · rename_i hGo
      refine (ih (by omega)).imp ?_
      rintro q t ⟨hSame, hLow, hHigh, hStop, hBefore⟩
      refine ⟨hSame, by omega, by omega, fun hLess => hStop (by omega), fun r hLe hLess => ?_⟩
      rcases Nat.eq_or_lt_of_le hLe with rfl | hLt
      · exact ⟨_, hByte, hGo⟩
      · exact hBefore r hLt hLess

/-- The scan stops at the latest where it is known to. -/
theorem scanTo_ends (hLe : p ≤ z) (hInside : z < n) (hStop : ∃ c, buf[z]? = some c ∧ stop c)
    (hFuel : z < p + k) :
    Within n (fun q t => t = buf ∧ p ≤ q ∧ q ≤ z ∧ ∃ c, buf[q]? = some c ∧ stop c)
      (scanTo stop k p) buf := by
  induction k generalizing p with
  | zero => exact absurd hFuel (by omega)
  | succ k ih =>
    obtain ⟨c, hByte, hMeets⟩ := hStop
    have hHere : p < buf.length := by
      have hLess := (List.getElem?_eq_some_iff.1 hByte).1
      omega
    refine within_bind.2 ⟨by omega, buf[p], List.getElem?_eq_getElem hHere, ?_⟩
    show Within n _ (if stop buf[p] then pure p else scanTo stop k (p + 1)) buf
    by_cases hNow : stop buf[p] = true
    · rw [if_pos hNow]
      exact ⟨rfl, le_refl _, hLe, _, List.getElem?_eq_getElem hHere, hNow⟩
    · rw [if_neg hNow]
      have hBefore : p ≠ z := by
        rintro rfl
        rw [List.getElem?_eq_getElem hHere] at hByte
        exact hNow (Option.some.inj hByte ▸ hMeets)
      refine (ih (by omega) (by omega)).imp ?_
      rintro q t ⟨hSame, hLow, hHigh, hAt⟩
      exact ⟨hSame, by omega, hHigh, hAt⟩

/-- The scan goes to the end of a string. -/
theorem scanTo_exact {str pre post : List UInt8} {c : UInt8}
    (hBuf : buf = pre ++ (str ++ c :: post))
    (hStr : ∀ x ∈ str, ¬ stop x) (hStop : stop c) (hFuel : str.length < k)
    (hEnd : pre.length + str.length < n) :
    Within n (fun q t => q = pre.length + str.length ∧ t = buf) (scanTo stop k pre.length) buf := by
  induction str generalizing k pre with
  | nil =>
    obtain ⟨k, rfl⟩ := Nat.exists_eq_succ_of_ne_zero (Nat.ne_of_gt hFuel)
    refine within_bind.2 ⟨hEnd, c, ?_, ?_⟩
    · rw [hBuf]
      simp
    · show Within n _ (if stop c then pure pre.length else scanTo stop k (pre.length + 1)) buf
      rw [if_pos hStop]
      exact ⟨rfl, rfl⟩
  | cons x str ih =>
    obtain ⟨k, rfl⟩ := Nat.exists_eq_succ_of_ne_zero (Nat.ne_of_gt (Nat.zero_lt_of_lt hFuel))
    have hLength : (pre ++ [x]).length = pre.length + 1 := by
      rw [List.length_append, List.length_singleton]
    rw [List.length_cons] at hEnd
    have hNext : Within n (fun q t => q = (pre ++ [x]).length + str.length ∧ t = buf)
        (scanTo stop k (pre ++ [x]).length) buf := by
      refine ih ?_ (fun y hy => hStr y (List.mem_cons_of_mem _ hy))
        (Nat.lt_of_succ_lt_succ hFuel) (by omega)
      rw [hBuf]
      simp
    refine within_bind.2 ⟨by omega, x, ?_, ?_⟩
    · rw [hBuf]
      simp
    · show Within n _ (if stop x then pure pre.length else scanTo stop k (pre.length + 1)) buf
      rw [if_neg (hStr x List.mem_cons_self), ← hLength]
      refine hNext.imp ?_
      rintro q t ⟨rfl, rfl⟩
      refine ⟨?_, rfl⟩
      rw [hLength, List.length_cons]
      omega

/-- A string with a zero behind it is read. -/
theorem cstr_within {str pre post : List UInt8} (hBuf : buf = pre ++ (str ++ 0 :: post))
    (hStr : 0 ∉ str)
    (hFuel : str.length < k) (hEnd : pre.length + str.length < n) :
    Within n (fun t buf' => t = str ∧ buf' = buf) (cstr k pre.length) buf := by
  induction str generalizing k pre with
  | nil =>
    obtain ⟨k, rfl⟩ := Nat.exists_eq_succ_of_ne_zero (Nat.ne_of_gt hFuel)
    refine within_bind.2 ⟨hEnd, 0, ?_, rfl, rfl⟩
    rw [hBuf]
    simp
  | cons c str ih =>
    obtain ⟨k, rfl⟩ := Nat.exists_eq_succ_of_ne_zero (Nat.ne_of_gt (Nat.zero_lt_of_lt hFuel))
    have hNe : c ≠ 0 := fun hZero => hStr (hZero ▸ List.mem_cons_self)
    have hNext :
      Within n (fun t buf' => t = str ∧ buf' = buf) (cstr k (pre ++ [c]).length) buf := by
      refine ih ?_ (fun hMem => hStr (List.mem_cons_of_mem _ hMem))
        (Nat.lt_of_succ_lt_succ hFuel) ?_
      · rw [hBuf]
        simp
      · rw [List.length_append, List.length_singleton]
        rw [List.length_cons] at hEnd
        omega
    rw [List.length_append, List.length_singleton] at hNext
    refine within_bind.2 ⟨by rw [List.length_cons] at hEnd; omega, c, ?_, ?_⟩
    · rw [hBuf]
      simp
    · show Within n _
        (if c = 0 then pure [] else (do let str ← cstr k (pre.length + 1); pure (c :: str))) buf
      rw [if_neg hNe]
      refine hNext.bind ?_
      rintro t buf' ⟨rfl, rfl⟩
      exact ⟨rfl, rfl⟩

/-- A string is read to its zero, which is not behind the one that is known. -/
theorem cstr_ends (hLe : p ≤ z) (hInside : z < n) (hZero : buf[z]? = some 0) (hFuel : z < p + k) :
    Within n (fun t buf' => buf' = buf ∧ 0 ∉ t ∧ p + t.length ≤ z ∧ buf[p + t.length]? = some 0)
      (cstr k p) buf := by
  induction k generalizing p with
  | zero => exact absurd hFuel (by omega)
  | succ k ih =>
    have hHere : p < buf.length := by
      have hLess := (List.getElem?_eq_some_iff.1 hZero).1
      omega
    refine within_bind.2 ⟨by omega, buf[p], List.getElem?_eq_getElem hHere, ?_⟩
    show Within n _
      (if buf[p] = 0 then pure [] else (do let str ← cstr k (p + 1); pure (buf[p] :: str))) buf
    by_cases hByte : buf[p] = 0
    · rw [if_pos hByte]
      refine ⟨rfl, List.not_mem_nil, hLe, ?_⟩
      rw [List.length_nil, Nat.add_zero, List.getElem?_eq_getElem hHere, hByte]
    · rw [if_neg hByte]
      have hBefore : p ≠ z := by
        rintro rfl
        rw [List.getElem?_eq_getElem hHere] at hZero
        exact hByte (Option.some.inj hZero)
      refine (ih (by omega) (by omega)).bind ?_
      rintro t buf' ⟨rfl, hNoZero, hEnd, hByteEnd⟩
      have hLength : p + (buf'[p] :: t).length = p + 1 + t.length := by
        rw [List.length_cons]
        omega
      refine ⟨rfl, ?_, by omega, by rw [hLength]; exact hByteEnd⟩
      intro hMem
      rcases List.mem_cons.1 hMem with hFirst | hRest
      · exact hByte hFirst.symm
      · exact hNoZero hRest

/-- Without a zero a string is read beyond the first bytes. -/
theorem not_cstr_within {Q : List UInt8 → List UInt8 → Prop}
    (hNone : ∀ i, p ≤ i → i < n → buf[i]? ≠ some 0) :
    ¬ Within n Q (cstr k p) buf := by
  induction k generalizing p Q with
  | zero => exact not_false
  | succ k ih =>
    intro hWithin
    obtain ⟨hInside, c, hByte, hNext⟩ := within_bind.1 hWithin
    change Within n _ (if c = 0 then pure [] else (do let str ← cstr k (p + 1); pure (c :: str)))
      buf at hNext
    have hNe : c ≠ 0 := by
      rintro rfl
      exact hNone p (le_refl p) hInside hByte
    rw [if_neg hNe, within_bind] at hNext
    exact ih (fun i hLe => hNone i (by omega)) hNext

end

end Scan

end TcfAgent.Lib
